import Niuchacz.Lib.Locks
import Niuchacz.Lib.Transition
import Niuchacz.SvcKernel

namespace Niuchacz.Psmgr.Handshake

open Lib.Locks Lib.Transition SvcKernel

/-!
# The start of a thread (`svc_kernel/psmgr/psmgr.c`)

`psmgrCreateThread` allocates a context, starts a thread on it and waits, with the context's
mutex and condition variable, until the thread has set `THREAD_STATUS_RUNNING`.  The thread
destroys both and frees the context.

* `Ctx` — one context and the two parties that use it.
* `ctxStep` — the steps of `psmgrCreateThread` and of `i_psmgrExecRoutine` up to `FREE`; a system
  of any number of calls is `each ctxStep`.
* `Inv` — what the two parties can rely on.
* `CreatorMove`, `ChildMove` — all that a step of a party changes; the invariant is derived from
  these.
* `handshake` — a run is as it should be exactly if no step of it is `Raced`.

The bit `_threadStatus` of a new context is whatever `malloc` has left there.  The fields of the
context that the handshake does not read are left out, and so is what the thread does after it
has freed the context.  `pthread_cond_wait` on an initialised mutex and condition variable
returns zero.  Locking a destroyed mutex and using a freed context are no steps: a run ends there
for the party that would take them.
-/

/-! ### The model -/

/-- The two parties of a context. -/
inductive Party where
  | creator
  | child
  deriving DecidableEq

/-- The steps of `psmgrCreateThread`; `ret` is the local variable of that name.  The four steps
    `failX` are the clean-up after an error, and `returned` is after the call. -/
inductive CreatorPc where
  | idle | malloc | init | lock | create | log (ret : Int32)
  | test (ret : Int32) | wait | asleep | woken | check (ret : Int32) | unlock
  | failUnlock | failCondDestroy | failMutexDestroy | failFree
  | returned (status : KStatus)
  deriving DecidableEq

/-- The steps of `i_psmgrExecRoutine` up to `FREE`; `none` is before `pthread_create`.  A thread
    whose `doublylinkedlistAdd` returns `NULL` has `crashed`: the routine dereferences it. -/
inductive ChildPc where
  | none | add | lock | setRunning | broadcast | unlock | mutexDestroy | condDestroy | free
  | done | crashed
  deriving DecidableEq

/-- A context with its two parties.  `frees` counts the calls of `FREE`; `stale` is bookkeeping:
    what `malloc` left in `_threadStatus`. -/
structure Ctx where
  running : Bool
  stale : Bool
  mutex : Option Party
  mutexLive : Bool
  condLive : Bool
  frees : ℕ
  creator : CreatorPc
  child : ChildPc
  deriving DecidableEq

/-- Before the call of `psmgrCreateThread`. -/
def Ctx.start : Ctx := ⟨false, false, none, false, false, 0, .idle, .none⟩

/-- What happens to a context: the call with a short name of the given length, the results of
    `malloc` (with what it left in the status bit), `pthread_create` and `doublylinkedlistAdd`,
    the next step of a party, and a wake-up of the creator without a broadcast. -/
inductive Act where
  | call (length : ℕ)
  | malloc (mem : Option Bool)
  | create (ret : Int32)
  | add (ok : Bool)
  | creator
  | child
  | spurious
  deriving DecidableEq

/-- What `pthread_cond_wait` returns. -/
def condWaitRet : Int32 := 0

/-- The next step of the creator that uses the context. -/
def creatorStep (x : Ctx) : Option Ctx :=
  match x.creator with
  | .init => some { x with mutexLive := true, condLive := true, creator := .lock }
  | .lock | .woken =>
      if x.mutexLive && x.mutex = none then
        some { x with
          mutex := some .creator
          creator := if x.creator = .lock then .create else .test condWaitRet }
      else none
  | .log ret => some { x with creator := if ret ≠ 0 then .failUnlock else .test ret }
  | .test ret => some { x with creator := if x.running then .check ret else .wait }
  | .wait => some { x with mutex := none, creator := .asleep }
  | .check ret => some { x with creator := if ret ≠ 0 then .failUnlock else .unlock }
  | .unlock => some { x with mutex := none, creator := .returned .success }
  | .failUnlock => some { x with mutex := none, creator := .failCondDestroy }
  | .failCondDestroy => some { x with condLive := false, creator := .failMutexDestroy }
  | .failMutexDestroy => some { x with mutexLive := false, creator := .failFree }
  | .failFree => some { x with frees := x.frees + 1, creator := .returned .unsuccess }
  | _ => none

/-- The next step of the child that uses the context. -/
def childStep (x : Ctx) : Option Ctx :=
  match x.child with
  | .lock =>
      if x.mutexLive && x.mutex = none then
        some { x with mutex := some .child, child := .setRunning }
      else none
  | .setRunning => some { x with running := true, child := .broadcast }
  | .broadcast =>
      some { x with
        creator := if x.creator = .asleep then .woken else x.creator
        child := .unlock }
  | .unlock => some { x with mutex := none, child := .mutexDestroy }
  | .mutexDestroy => some { x with mutexLive := false, child := .condDestroy }
  | .condDestroy => some { x with condLive := false, child := .free }
  | .free => some { x with frees := x.frees + 1, child := .done }
  | _ => none

/-- What an action does.  Nothing can be done with a context that has been freed. -/
def ctxStep (x : Ctx) : Act → Option Ctx
  | .call length =>
      if x.creator = .idle then
        some { x with
          creator := if length ≥ 15 then .returned .invalidParameters else .malloc }
      else none
  | .malloc mem =>
      if x.creator = .malloc then
        match mem with
        | none => some { x with creator := .returned .outOfMemory }
        | some bit => some { x with running := bit, stale := bit, creator := .init }
      else none
  | .create ret =>
      if x.creator = .create then
        some { x with creator := .log ret, child := if ret ≠ 0 then .none else .add }
      else none
  | .add ok =>
      if x.child = .add ∧ x.frees = 0 then
        some { x with child := if ok then .lock else .crashed }
      else none
  | .creator => if x.frees = 0 then creatorStep x else none
  | .child => if x.frees = 0 then childStep x else none
  | .spurious => if x.creator = .asleep then some { x with creator := .woken } else none

section
variable {κ : Type} [DecidableEq κ]

/-- Any number of calls of `psmgrCreateThread`, each with its own context. -/
def step : (κ → Ctx) → κ × Act → Option (κ → Ctx) := each ctxStep

end

/-! ### Where the parties are -/

/-- The creator holds the mutex. -/
def CreatorPc.holds : CreatorPc → Bool
  | .create | .log _ | .test _ | .wait | .check _ | .unlock | .failUnlock => true
  | _ => false

/-- The child holds the mutex. -/
def ChildPc.holds : ChildPc → Bool
  | .setRunning | .broadcast | .unlock => true
  | _ => false

/-- The creator has started the child. -/
def CreatorPc.started : CreatorPc → Bool
  | .log ret => ret = 0
  | .test _ | .wait | .asleep | .woken | .check _ | .unlock | .returned .success => true
  | _ => false

/-- The creator has a context. -/
def CreatorPc.hasCtx : CreatorPc → Bool
  | .idle | .malloc | .returned .invalidParameters | .returned .outOfMemory => false
  | _ => true

/-- The value of the creator's `ret` after `pthread_create` has succeeded. -/
def CreatorPc.retZero : CreatorPc → Bool
  | .test ret | .check ret => ret = 0
  | _ => true

/-- The creator has seen `THREAD_STATUS_RUNNING`. -/
def CreatorPc.seen : CreatorPc → Bool
  | .check _ | .unlock | .returned .success => true
  | _ => false

/-- The creator waits for `THREAD_STATUS_RUNNING`. -/
def CreatorPc.waits : CreatorPc → Bool
  | .wait | .asleep | .woken => true
  | _ => false

/-- The creator has been woken after the child's broadcast, or did not wait for it. -/
def CreatorPc.told : CreatorPc → Bool
  | .woken | .test _ | .check _ | .unlock | .returned .success => true
  | _ => false

/-- The child has got the mutex. -/
def ChildPc.locked : ChildPc → Bool
  | .none | .add | .lock | .crashed => false
  | _ => true

/-- The child has set `THREAD_STATUS_RUNNING`. -/
def ChildPc.ran : ChildPc → Bool
  | .none | .add | .lock | .crashed | .setRunning => false
  | _ => true

/-- The child has sent its broadcast. -/
def ChildPc.sent : ChildPc → Bool
  | .unlock | .mutexDestroy | .condDestroy | .free | .done => true
  | _ => false

/-! ### The invariant -/

/-- What holds of a context at any time. -/
structure Inv (x : Ctx) : Prop where
  creator_holds : x.mutex = some .creator ↔ x.creator.holds = true
  child_holds : x.mutex = some .child ↔ x.child.holds = true
  started : x.child ≠ .none → x.creator.started = true
  running : x.creator.hasCtx = true → x.running = (x.stale || x.child.ran)
  retZero : x.creator.retZero = true
  seen : x.creator.seen = true → x.stale = true ∨ x.child.ran = true
  waits : x.creator.waits = true → x.stale = false
  early : x.stale = true → x.child.locked = true → x.creator = .returned .success
  told : x.child.sent = true → x.creator.told = true
  frees : x.frees = if x.child = .done ∨ x.creator = .returned .unsuccess then 1 else 0

/-- Before `psmgrCreateThread` the invariant holds. -/
theorem inv_start : Inv Ctx.start := by
  constructor <;> decide

variable {x x' : Ctx}

/-- A thread that has sent its signal is running. -/
theorem ChildPc.ran_of_sent {p : ChildPc} (h : p.sent = true) : p.ran = true := by
  cases p <;> first | rfl | cases h

/-- A thread that runs on has taken the mutex before. -/
theorem ChildPc.locked_of_ran {p : ChildPc} (h : p.ran = true) : p.locked = true := by
  cases p <;> first | rfl | cases h

/-- A creator that has started its child and does not hold the mutex sleeps, wakes up, or has
    returned. -/
theorem CreatorPc.cases_of_started {p : CreatorPc} (hs : p.started = true) (hh : p.holds = false) :
    p = .asleep ∨ p = .woken ∨ p = .returned .success := by
  cases p
  case asleep => exact Or.inl rfl
  case woken => exact Or.inr (Or.inl rfl)
  case returned status =>
    cases status
    case success => exact Or.inr (Or.inr rfl)
    all_goals cases hs
  all_goals first | exact Bool.noConfusion hh | exact Bool.noConfusion hs

/-- After `pthread_create` has succeeded, `psmgrCreateThread` does not return that it has failed. -/
theorem CreatorPc.ne_unsuccess {p : CreatorPc} (hs : p.started = true) :
    p ≠ .returned .unsuccess := by
  rintro rfl
  cases hs

/-! ### What the steps do -/

/-- Whether a party holds the mutex. -/
def Ctx.holds (x : Ctx) : Party → Bool
  | .creator => x.creator.holds
  | .child => x.child.holds

/-- A step of `t` leaves the mutex alone, takes it while it is free, or gives it back. -/
abbrev MutexEffect (t : Party) (x x' : Ctx) : Prop :=
  Effect (fun (_ : Unit) (b : Bool) => b) (fun _ => x.mutex) (fun _ => x'.mutex) t (x.holds t)
    (x'.holds t) ()

/-- The steps of the creator from `p` to `p'` while the status bit is `running`. -/
structure CreatorPc.Moves (running : Bool) (p p' : CreatorPc) : Prop where
  begun : p.hasCtx = true
  ahead : ∀ st, p ≠ .returned st
  started : p.started = true → p'.started = true
  retZero : p'.retZero = true
  seen : p'.seen = true → p.seen = true ∨ running = true
  waits : p'.waits = true → p.waits = true ∨ running = false
  told : p.told = true → p'.told = true ∨ running = false

/-- What a step of the creator changes in the context. -/
structure CreatorMove (x x' : Ctx) : Prop where
  moves : x.creator.Moves x.running x'.creator
  child : x'.child = x.child
  running : x'.running = x.running
  stale : x'.stale = x.stale
  mutex : MutexEffect .creator x x'
  frees : x'.frees = x.frees ∧ x'.creator ≠ .returned .unsuccess ∨
    x'.frees = x.frees + 1 ∧ x'.creator = .returned .unsuccess ∧ x.creator.started = false

/-- A step of the creator to `p'` that frees nothing. -/
theorem CreatorMove.keep {x : Ctx} {p' : CreatorPc} {mutex : Option Party}
    {mutexLive condLive : Bool}
    (hp : x.creator.Moves x.running p') (hne : p' ≠ .returned .unsuccess)
    (hmutex : MutexEffect .creator x { x with mutex := mutex, creator := p' }) :
    CreatorMove x { x with
      mutex := mutex, mutexLive := mutexLive, condLive := condLive, creator := p' } :=
  ⟨hp, rfl, rfl, rfl, hmutex, Or.inl ⟨rfl, hne⟩⟩

/-- What a step of the child changes in the context. -/
structure ChildMove (x x' : Ctx) : Prop where
  creator : x'.creator = x.creator
  stale : x'.stale = x.stale
  started : x.creator.started = true
  mutex : MutexEffect .child x x'
  running : x'.running = x.running ∧ x'.child.ran = x.child.ran ∨
    x'.running = true ∧ x'.child.ran = true
  locked : x'.child.locked = true → x.child.locked = true ∨ x.mutex = none
  sent : x'.child.sent = true → x.child.sent = true ∨ x.creator.told = true
  frees : x'.frees = x.frees ∧ x.child ≠ .done ∧ x'.child ≠ .done ∨
    x'.frees = x.frees + 1 ∧ x.child ≠ .done ∧ x'.child = .done

/-- At most one of the two holds the mutex. -/
theorem Inv.exclusive (hi : Inv x) :
    Exclusive (fun (_ : Unit) (b : Bool) => b) (fun _ => x.mutex) x.holds := by
  rintro - (_ | _)
  · exact hi.creator_holds
  · exact hi.child_holds

/-- The mutex belongs to the party that holds it after a step as well. -/
theorem Inv.exclusive_step (hi : Inv x) {t : Party} (he : MutexEffect t x x')
    (hother : ∀ u, u ≠ t → x'.holds u = x.holds u) :
    (x'.mutex = some .creator ↔ x'.creator.holds = true) ∧
      (x'.mutex = some .child ↔ x'.child.holds = true) :=
  have hx := hi.exclusive.step (fun _ => he) fun _ => hother
  ⟨hx () .creator, hx () .child⟩

/-- Before `pthread_create` there is no thread. -/
theorem Inv.child_eq_none (hi : Inv x) (hs : x.creator.started = false) : x.child = .none := by
  by_contra hne
  rw [hi.started hne] at hs
  cases hs

/-- The steps of the creator keep the invariant. -/
theorem Inv.creatorMove (hi : Inv x) (hm : CreatorMove x x') : Inv x' := by
  obtain ⟨hp, hchild, hrunning, hstale, hmutex, hfrees⟩ := hm
  obtain ⟨hcreator, hchild'⟩ := hi.exclusive_step hmutex (by
    rintro (_ | _) hne
    · exact absurd rfl hne
    · show x'.child.holds = x.child.holds
      rw [hchild])
  have hbit := hi.running hp.begun
  refine ⟨hcreator, hchild', ?_, ?_, hp.retZero, ?_, ?_, ?_, ?_, ?_⟩
  · rw [hchild]
    exact fun hne => hp.started (hi.started hne)
  · rw [hrunning, hstale, hchild]
    exact fun _ => hbit
  · intro hseen
    rw [hstale, hchild]
    rcases hp.seen hseen with hseen | htrue
    · exact hi.seen hseen
    · rwa [hbit, Bool.or_eq_true] at htrue
  · intro hwaits
    rw [hstale]
    rcases hp.waits hwaits with hwaits | hfalse
    · exact hi.waits hwaits
    · rw [hbit, Bool.or_eq_false_iff] at hfalse
      exact hfalse.1
  · rw [hstale, hchild]
    exact fun hst hlocked => absurd (hi.early hst hlocked) (hp.ahead _)
  · rw [hchild]
    intro hsent
    rcases hp.told (hi.told hsent) with htold | hfalse
    · exact htold
    · -- the child has set the bit before its broadcast
      rw [hbit, ChildPc.ran_of_sent hsent, Bool.or_true] at hfalse
      cases hfalse
  · have hold := hi.frees
    simp only [or_iff_left (hp.ahead .unsuccess)] at hold
    rw [hchild]
    rcases hfrees with ⟨hsame, hne⟩ | ⟨hmore, hret, hno⟩
    · simp only [hsame, hold, or_iff_left hne]
    · -- no child has been started, so the context has not been freed before
      have hnone : x.child ≠ .done := by
        rw [hi.child_eq_none hno]
        rintro ⟨⟩
      rw [hmore, hold, if_neg hnone, if_pos (Or.inr hret)]

/-- The steps of the child keep the invariant. -/
theorem Inv.childMove (hi : Inv x) (hm : ChildMove x x') : Inv x' := by
  obtain ⟨hcreator, hstale, hstarted, hmutex, hrunning, hlocked, hsent, hfrees⟩ := hm
  obtain ⟨hholds, hholds'⟩ := hi.exclusive_step hmutex (by
    rintro (_ | _) hne
    · show x'.creator.holds = x.creator.holds
      rw [hcreator]
    · exact absurd rfl hne)
  have hran : x.child.ran = true → x'.child.ran = true := by
    rcases hrunning with ⟨-, hran⟩ | ⟨-, hran⟩
    · rw [hran]
      exact id
    · exact fun _ => hran
  refine ⟨hholds, hholds', ?_, ?_, ?_, ?_, ?_, ?_, ?_, ?_⟩
  · rw [hcreator]
    exact fun _ => hstarted
  · rw [hcreator, hstale]
    intro hctx
    rcases hrunning with ⟨hsame, hran⟩ | ⟨htrue, hran⟩
    · rw [hsame, hran]
      exact hi.running hctx
    · rw [htrue, hran, Bool.or_true]
  · rw [hcreator]
    exact hi.retZero
  · rw [hcreator, hstale]
    exact fun hseen => (hi.seen hseen).imp_right hran
  · rw [hcreator, hstale]
    exact hi.waits
  · rw [hcreator, hstale]
    intro hst hl
    rcases hlocked hl with hl | hfree
    · exact hi.early hst hl
    · -- a creator that sleeps or wakes up has not found the bit set
      have hholds : x.creator.holds = false := by
        rw [← Bool.not_eq_true, ← hi.creator_holds, hfree]
        rintro ⟨⟩
      rcases CreatorPc.cases_of_started hstarted hholds with hx | hx | hx
      · rw [hi.waits (by rw [hx]; rfl)] at hst
        cases hst
      · rw [hi.waits (by rw [hx]; rfl)] at hst
        cases hst
      · exact hx
  · rw [hcreator]
    exact fun hs => (hsent hs).elim hi.told id
  · have hold := hi.frees
    have hne := CreatorPc.ne_unsuccess hstarted
    simp only [or_iff_left hne] at hold
    simp only [hcreator, or_iff_left hne]
    rcases hfrees with ⟨hsame, hno, hno'⟩ | ⟨hmore, hno, hdone⟩
    · rw [hsame, hold, if_neg hno, if_neg hno']
    · rw [hmore, hold, if_neg hno, if_pos hdone]

/-- A creator is woken up, or was not asleep. -/
theorem Inv.wake (hi : Inv x) :
    Inv { x with creator := if x.creator = .asleep then .woken else x.creator } := by
  by_cases hx : x.creator = .asleep
  · rw [if_pos hx]
    refine hi.creatorMove (.keep ⟨?_, ?_, fun _ => rfl, rfl, by rintro ⟨⟩, fun _ => ?_,
      fun _ => Or.inl rfl⟩ (by rintro ⟨⟩) ?_)
    · rw [hx]; rfl
    · rw [hx]; rintro _ ⟨⟩
    · rw [hx]; exact Or.inl rfl
    · refine Effect.stay rfl ?_
      simp only [Ctx.holds, hx]
      rfl
  · rw [if_neg hx]
    exact hi

/-- The steps of the creator. -/
theorem creatorMove_of_step (hz : x.creator.retZero = true) (h : creatorStep x = some x') :
    CreatorMove x x' := by
  obtain ⟨running, stale, mutex, mutexLive, condLive, frees, creator, child⟩ := x
  cases creator
  case lock =>
    simp only [creatorStep] at h
    split at h <;> cases h
    rename_i hfree
    rw [Bool.and_eq_true, decide_eq_true_eq] at hfree
    refine .keep ⟨rfl, by rintro _ ⟨⟩, by rintro ⟨⟩, rfl, by rintro ⟨⟩, by rintro ⟨⟩, by rintro ⟨⟩⟩
      (by rintro ⟨⟩) ?_
    exact Or.inr (Or.inl ⟨hfree.2, rfl, rfl⟩)
  case woken =>
    simp only [creatorStep] at h
    split at h <;> cases h
    rename_i hfree
    rw [Bool.and_eq_true, decide_eq_true_eq] at hfree
    refine .keep ⟨rfl, by rintro _ ⟨⟩, fun _ => rfl, rfl, by rintro ⟨⟩, by rintro ⟨⟩,
      fun _ => Or.inl rfl⟩ (by rintro ⟨⟩) ?_
    exact Or.inr (Or.inl ⟨hfree.2, rfl, rfl⟩)
  case log ret =>
    cases h
    by_cases hret : ret = 0
    · subst hret
      exact .keep ⟨rfl, by rintro _ ⟨⟩, fun _ => rfl, rfl, by rintro ⟨⟩, by rintro ⟨⟩,
        by rintro ⟨⟩⟩ (by rintro ⟨⟩) (Or.inl ⟨rfl, rfl⟩)
    · have hno : (CreatorPc.log ret).started = false := decide_eq_false hret
      rw [if_pos hret]
      refine .keep ⟨rfl, by rintro _ ⟨⟩, fun hs => ?_, rfl, by rintro ⟨⟩, by rintro ⟨⟩,
        by rintro ⟨⟩⟩ (by rintro ⟨⟩) (Or.inl ⟨rfl, rfl⟩)
      rw [hno] at hs
      cases hs
  case test ret =>
    cases h
    cases running
    · exact .keep ⟨rfl, by rintro _ ⟨⟩, fun _ => rfl, rfl, by rintro ⟨⟩, fun _ => Or.inr rfl,
        fun _ => Or.inr rfl⟩ (by rintro ⟨⟩) (Or.inl ⟨rfl, rfl⟩)
    · exact .keep ⟨rfl, by rintro _ ⟨⟩, fun _ => rfl, hz, fun _ => Or.inr rfl, by rintro ⟨⟩,
        fun _ => Or.inl rfl⟩ (by rintro ⟨⟩) (Or.inl ⟨rfl, rfl⟩)
  case check ret =>
    -- the result of `pthread_create` was zero, and so is that of `pthread_cond_wait`
    have hret : ret = 0 := of_decide_eq_true hz
    subst hret
    cases h
    exact .keep ⟨rfl, by rintro _ ⟨⟩, fun _ => rfl, rfl, fun _ => Or.inl rfl, by rintro ⟨⟩,
      fun _ => Or.inl rfl⟩ (by rintro ⟨⟩) (Or.inl ⟨rfl, rfl⟩)
  case wait =>
    cases h
    exact .keep ⟨rfl, by rintro _ ⟨⟩, fun _ => rfl, rfl, by rintro ⟨⟩, fun _ => Or.inl rfl,
      by rintro ⟨⟩⟩ (by rintro ⟨⟩) (Or.inr (Or.inr ⟨rfl, rfl, rfl⟩))
  case unlock =>
    cases h
    exact .keep ⟨rfl, by rintro _ ⟨⟩, fun _ => rfl, rfl, fun _ => Or.inl rfl, by rintro ⟨⟩,
      fun _ => Or.inl rfl⟩ (by rintro ⟨⟩) (Or.inr (Or.inr ⟨rfl, rfl, rfl⟩))
  case failUnlock =>
    cases h
    exact .keep ⟨rfl, by rintro _ ⟨⟩, by rintro ⟨⟩, rfl, by rintro ⟨⟩, by rintro ⟨⟩, by rintro ⟨⟩⟩
      (by rintro ⟨⟩) (Or.inr (Or.inr ⟨rfl, rfl, rfl⟩))
  case failFree =>
    -- the only step of the creator that frees the context
    cases h
    exact ⟨⟨rfl, by rintro _ ⟨⟩, by rintro ⟨⟩, rfl, by rintro ⟨⟩, by rintro ⟨⟩, by rintro ⟨⟩⟩,
      rfl, rfl, rfl, Or.inl ⟨rfl, rfl⟩, Or.inr ⟨rfl, rfl, rfl⟩⟩
  case init | failCondDestroy | failMutexDestroy =>
    cases h
    exact .keep ⟨rfl, by rintro _ ⟨⟩, by rintro ⟨⟩, rfl, by rintro ⟨⟩, by rintro ⟨⟩, by rintro ⟨⟩⟩
      (by rintro ⟨⟩) (Or.inl ⟨rfl, rfl⟩)
  all_goals cases h

/-- The steps of the child, from a state in which its broadcast has nobody left to wake up. -/
theorem childMove_of_step (hs : x.creator.started = true)
    (htold : x.child = .broadcast → x.creator.told = true) (h : childStep x = some x') :
    ChildMove x x' := by
  obtain ⟨running, stale, mutex, mutexLive, condLive, frees, creator, child⟩ := x
  cases child
  case lock =>
    simp only [childStep] at h
    split at h <;> cases h
    rename_i hfree
    rw [Bool.and_eq_true, decide_eq_true_eq] at hfree
    exact ⟨rfl, rfl, hs, Or.inr (Or.inl ⟨hfree.2, rfl, rfl⟩), Or.inl ⟨rfl, rfl⟩,
      fun _ => Or.inr hfree.2, by rintro ⟨⟩, Or.inl ⟨rfl, by rintro ⟨⟩, by rintro ⟨⟩⟩⟩
  case setRunning =>
    cases h
    exact ⟨rfl, rfl, hs, Or.inl ⟨rfl, rfl⟩, Or.inr ⟨rfl, rfl⟩, fun _ => Or.inl rfl, by rintro ⟨⟩,
      Or.inl ⟨rfl, by rintro ⟨⟩, by rintro ⟨⟩⟩⟩
  case broadcast =>
    cases h
    -- the creator has seen the flag, so that the broadcast wakes nobody
    have hawake : creator ≠ .asleep := by
      rintro rfl
      exact Bool.noConfusion (htold rfl)
    exact ⟨if_neg hawake, rfl, hs, Or.inl ⟨rfl, rfl⟩, Or.inl ⟨rfl, rfl⟩, fun _ => Or.inl rfl,
      fun _ => Or.inr (htold rfl), Or.inl ⟨rfl, by rintro ⟨⟩, by rintro ⟨⟩⟩⟩
  case unlock =>
    cases h
    exact ⟨rfl, rfl, hs, Or.inr (Or.inr ⟨rfl, rfl, rfl⟩), Or.inl ⟨rfl, rfl⟩, fun _ => Or.inl rfl,
      fun _ => Or.inl rfl, Or.inl ⟨rfl, by rintro ⟨⟩, by rintro ⟨⟩⟩⟩
  case free =>
    cases h
    exact ⟨rfl, rfl, hs, Or.inl ⟨rfl, rfl⟩, Or.inl ⟨rfl, rfl⟩, fun _ => Or.inl rfl,
      fun _ => Or.inl rfl, Or.inr ⟨rfl, by rintro ⟨⟩, rfl⟩⟩
  case mutexDestroy | condDestroy =>
    cases h
    exact ⟨rfl, rfl, hs, Or.inl ⟨rfl, rfl⟩, Or.inl ⟨rfl, rfl⟩, fun _ => Or.inl rfl,
      fun _ => Or.inl rfl, Or.inl ⟨rfl, by rintro ⟨⟩, by rintro ⟨⟩⟩⟩
  all_goals cases h

/-- The child's steps keep the invariant: for the broadcast the creator is woken up first. -/
theorem inv_childStep (hi : Inv x) (h : childStep x = some x') : Inv x' := by
  have hstarted : x.creator.started = true := by
    refine hi.started fun hnone => ?_
    simp [childStep, hnone] at h
  by_cases hb : x.child = .broadcast
  · have hmutex := hi.child_holds.mpr (by rw [hb]; rfl)
    have hholds : x.creator.holds = false := by
      rw [← Bool.not_eq_true, ← hi.creator_holds, hmutex]
      rintro ⟨⟩
    -- the creator is awake now, so the broadcast does not move it a second time
    generalize hw : (if x.creator = .asleep then CreatorPc.woken else x.creator) = w
    have hwoken : w.started = true ∧ w.told = true := by
      rcases CreatorPc.cases_of_started hstarted hholds with hx | hx | hx <;>
        rw [hx] at hw <;> subst hw <;> exact ⟨rfl, rfl⟩
    have hawake : w ≠ .asleep := by
      rintro rfl
      exact Bool.noConfusion hwoken.2
    have hwake := hi.wake
    rw [hw] at hwake
    refine hwake.childMove (childMove_of_step hwoken.1 (fun _ => hwoken.2) ?_)
    simp only [childStep, hb, hw] at h
    simp only [childStep, hb, if_neg hawake]
    exact h
  · exact hi.childMove (childMove_of_step hstarted (fun hx => absurd hx hb) h)

/-- The creator goes on to `p` before it has started its child. -/
theorem Inv.advance (hi : Inv x) {p : CreatorPc} {running stale : Bool}
    (hs : x.creator.started = false) (hu : x.creator ≠ .returned .unsuccess)
    (hholds : p.holds = x.creator.holds) (hrunning : p.hasCtx = true → running = stale)
    (hzero : p.retZero = true) (hseen : p.seen = false) (hwaits : p.waits = false)
    (hp : p ≠ .returned .unsuccess) :
    Inv { x with running := running, stale := stale, creator := p } := by
  -- before `pthread_create` there is no thread that could have freed anything
  have hchild := hi.child_eq_none hs
  have hfrees : x.frees = 0 := by
    rw [hi.frees, if_neg (by simp [hchild, hu])]
  refine ⟨by rw [hholds]; exact hi.creator_holds, hi.child_holds, fun hne => absurd hchild hne,
    fun hctx => ?_, hzero, fun h => ?_, fun h => ?_, fun _ h => ?_, fun h => ?_, ?_⟩
  · rw [hrunning hctx, hchild]
    exact (Bool.or_false _).symm
  · rw [hseen] at h
    cases h
  · rw [hwaits] at h
    cases h
  · rw [hchild] at h
    cases h
  · rw [hchild] at h
    cases h
  · rw [hfrees, if_neg (by simp [hchild, hp])]

/-- **Step.**  Every step keeps the invariant. -/
theorem inv_ctxStep {a : Act} (hi : Inv x) (h : ctxStep x a = some x') : Inv x' := by
  cases a with
  | creator =>
    simp only [ctxStep] at h
    split at h
    · exact hi.creatorMove (creatorMove_of_step hi.retZero h)
    · cases h
  | child =>
    simp only [ctxStep] at h
    split at h
    · exact inv_childStep hi h
    · cases h
  | add ok =>
    simp only [ctxStep] at h
    split at h <;> cases h
    rename_i hadd
    have hstarted := hi.started (by rw [hadd.1]; rintro ⟨⟩)
    cases ok
    all_goals
      refine hi.childMove ⟨rfl, rfl, hstarted, Or.inl ⟨rfl, ?_⟩, Or.inl ⟨rfl, ?_⟩, by rintro ⟨⟩,
        by rintro ⟨⟩, Or.inl ⟨rfl, by rw [hadd.1]; rintro ⟨⟩, by rintro ⟨⟩⟩⟩
      · simp only [Ctx.holds, hadd.1]
        rfl
      · rw [hadd.1]
        rfl
  | spurious =>
    simp only [ctxStep] at h
    split at h <;> cases h
    rename_i hpc
    have hwake := hi.wake
    rwa [if_pos hpc] at hwake
  | call length =>
    simp only [ctxStep] at h
    split at h <;> cases h
    rename_i hpc
    have hholds : x.creator.holds = false := by rw [hpc]; rfl
    -- the name is too long, or memory is needed next
    split <;>
      exact hi.advance (by rw [hpc]; rfl) (by rw [hpc]; rintro ⟨⟩) hholds.symm (by rintro ⟨⟩)
        rfl rfl rfl (by rintro ⟨⟩)
  | malloc mem =>
    simp only [ctxStep] at h
    split at h
    case isFalse => cases h
    rename_i hpc
    have hholds : x.creator.holds = false := by rw [hpc]; rfl
    cases mem with
    | none =>
      cases h
      exact hi.advance (by rw [hpc]; rfl) (by rw [hpc]; rintro ⟨⟩) hholds.symm (by rintro ⟨⟩)
        rfl rfl rfl (by rintro ⟨⟩)
    | some bit =>
      cases h
      exact hi.advance (by rw [hpc]; rfl) (by rw [hpc]; rintro ⟨⟩) hholds.symm (fun _ => rfl)
        rfl rfl rfl (by rintro ⟨⟩)
  | create ret =>
    simp only [ctxStep] at h
    split at h <;> cases h
    rename_i hpc
    have hs : x.creator.started = false := by rw [hpc]; rfl
    have hchild := hi.child_eq_none hs
    have hbit : x.running = x.stale := by
      rw [hi.running (by rw [hpc]; rfl), hchild]
      exact Bool.or_false _
    have hlog : Inv { x with creator := .log ret } :=
      hi.advance hs (by rw [hpc]; rintro ⟨⟩) (by rw [hpc]; rfl) (fun _ => hbit) rfl rfl rfl
        (by rintro ⟨⟩)
    by_cases hret : ret = 0
    · -- the thread exists from now on
      rw [if_neg (not_not.mpr hret)]
      refine hlog.childMove ⟨rfl, rfl, decide_eq_true hret, Or.inl ⟨rfl, ?_⟩, Or.inl ⟨rfl, ?_⟩,
        by rintro ⟨⟩, by rintro ⟨⟩, Or.inl ⟨rfl, by rw [hchild]; rintro ⟨⟩, by rintro ⟨⟩⟩⟩
      · simp only [Ctx.holds, hchild]
        rfl
      · rw [hchild]
        rfl
    · rw [if_pos hret, ← hchild]
      exact hlog

/-! ### How the parties move -/

/-- The child's next step. -/
def ChildPc.next : ChildPc → ChildPc
  | .lock => .setRunning
  | .setRunning => .broadcast
  | .broadcast => .unlock
  | .unlock => .mutexDestroy
  | .mutexDestroy => .condDestroy
  | .condDestroy => .free
  | .free => .done
  | p => p

/-- The child has begun to destroy what it shares with the creator. -/
def ChildPc.gone : ChildPc → Bool
  | .condDestroy | .free | .done => true
  | _ => false

/-- A step of the child moves the creator only by waking it up. -/
theorem childStep_moves (h : childStep x = some x') :
    x'.child = x.child.next ∧
      (x'.creator = x.creator ∨ x.creator = .asleep ∧ x'.creator = .woken) := by
  obtain ⟨running, stale, mutex, mutexLive, condLive, frees, creator, child⟩ := x
  cases child
  case lock =>
    simp only [childStep] at h
    split at h <;> cases h
    exact ⟨rfl, Or.inl rfl⟩
  case broadcast =>
    cases h
    refine ⟨rfl, ?_⟩
    by_cases hs : creator = .asleep
    · exact Or.inr ⟨hs, if_pos hs⟩
    · exact Or.inl (if_neg hs)
  all_goals
    cases h
    try exact ⟨rfl, Or.inl rfl⟩

/-- A step of the creator does not move the child, and only the last one returns success. -/
theorem creatorStep_moves (h : creatorStep x = some x') :
    x'.child = x.child ∧ (∀ st, x.creator ≠ .returned st) ∧
      (x'.creator = .returned .success → x.creator = .unlock) := by
  obtain ⟨running, stale, mutex, mutexLive, condLive, frees, creator, child⟩ := x
  cases creator
  case lock | woken =>
    simp only [creatorStep] at h
    split at h <;> cases h
    exact ⟨rfl, by rintro _ ⟨⟩, by rintro ⟨⟩⟩
  case log ret | test ret | check ret =>
    cases h
    refine ⟨rfl, by rintro _ ⟨⟩, ?_⟩
    dsimp only
    split <;> rintro ⟨⟩
  all_goals
    cases h
    try exact ⟨rfl, by rintro _ ⟨⟩, by simp⟩

/-! ### Proper and raced steps -/

/-- What the handshake is for: the creator returns success after its child has set
    `THREAD_STATUS_RUNNING`, and the child destroys the mutex and the condition variable and
    frees the context when the creator has no step left that uses them. -/
def Proper (x : Ctx) (a : Act) : Prop :=
  (a = .creator → x.creator = .unlock → x.child.ran = true) ∧
  (a = .child → x.child = .mutexDestroy ∨ x.child = .condDestroy ∨ x.child = .free →
    ∃ st, x.creator = .returned st)

/-- The steps by which the handshake fails: the creator returns since `malloc` left the bit set,
    or the child destroys the mutex before the creator, which it has woken, has taken it, tested
    the bit and given it back. -/
def Raced (x : Ctx) (a : Act) : Prop :=
  (a = .creator ∧ x.creator = .unlock ∧ x.stale = true) ∨
  (a = .child ∧ x.child = .mutexDestroy ∧ x.creator.told = true ∧
    x.creator ≠ .returned .success)

/-- What holds as long as no step is raced. -/
structure Clean (x : Ctx) : Prop where
  success : x.creator = .returned .success → x.child.ran = true
  gone : x.child.gone = true → x.creator = .returned .success

theorem ChildPc.ran_next {p : ChildPc} (h : p.ran = true) : p.next.ran = true := by
  cases p <;> first | rfl | cases h

/-- The thread gives the context back at one point only. -/
theorem ChildPc.gone_next {p : ChildPc} (h : p.next.gone = true) :
    p.gone = true ∨ p = .mutexDestroy := by
  cases p <;> first | exact Or.inl rfl | exact Or.inr rfl | cases h

/-- A child in the middle of its destruction has sent its broadcast. -/
theorem Inv.told_of_mutexDestroy (hi : Inv x) (hx : x.child = .mutexDestroy) :
    x.creator.told = true :=
  hi.told (by rw [hx]; rfl)

/-- **Step.**  A step that is not raced keeps the parties apart. -/
theorem clean_ctxStep {a : Act} (hi : Inv x) (hc : Clean x) (ha : ¬ Raced x a)
    (h : ctxStep x a = some x') : Clean x' := by
  cases a with
  | creator =>
    simp only [ctxStep] at h
    split at h
    case isFalse => cases h
    obtain ⟨hchild, hreturned, hsuccess⟩ := creatorStep_moves h
    refine ⟨fun hx' => ?_, fun hgone => ?_⟩
    · -- the bit was set by the child: with a bit left by `malloc` the step would be raced
      have hunlock := hsuccess hx'
      rw [hchild]
      rcases hi.seen (by rw [hunlock]; rfl) with hstale | hran
      · exact absurd (Or.inl ⟨rfl, hunlock, hstale⟩) ha
      · exact hran
    · rw [hchild] at hgone
      exact absurd (hc.gone hgone) (hreturned _)
  | child =>
    simp only [ctxStep] at h
    split at h
    case isFalse => cases h
    obtain ⟨hchild, hcreator⟩ := childStep_moves h
    refine ⟨fun hx' => ?_, fun hgone => ?_⟩
    · rw [hchild]
      rcases hcreator with heq | ⟨-, hwoken⟩
      · exact ChildPc.ran_next (hc.success (heq ▸ hx'))
      · rw [hwoken] at hx'
        cases hx'
    · have hret : x.creator = .returned .success := by
        rw [hchild] at hgone
        rcases ChildPc.gone_next hgone with hgone | hdestroy
        · exact hc.gone hgone
        · by_contra hne
          exact ha (Or.inr ⟨rfl, hdestroy, hi.told_of_mutexDestroy hdestroy, hne⟩)
      rcases hcreator with heq | ⟨hasleep, -⟩
      · rw [heq, hret]
      · rw [hret] at hasleep
        cases hasleep
  | add ok =>
    simp only [ctxStep] at h
    split at h <;> cases h
    rename_i hadd
    refine ⟨fun hx' => ?_, fun hgone => ?_⟩
    · have hran := hc.success hx'
      rw [hadd.1] at hran
      cases hran
    · dsimp only at hgone
      split at hgone <;> cases hgone
  | create ret =>
    simp only [ctxStep] at h
    split at h <;> cases h
    refine ⟨by rintro ⟨⟩, fun hgone => ?_⟩
    dsimp only at hgone
    split at hgone <;> cases hgone
  | _ =>
    -- the child does not move, and the creator does not return success
    simp only [ctxStep] at h
    repeat' split at h
    all_goals
      cases h
      try
        rename_i hpc
        refine ⟨by rintro ⟨⟩, fun hgone => ?_⟩
        have hret := hc.gone hgone
        simp_all

/-! ### Runs -/

variable {κ : Type} [DecidableEq κ] {s : κ → Ctx} {h : List ((κ → Ctx) × κ × Act)}

/-- Neither party of a call has a step left that uses the context. -/
def Finished (x : Ctx) : Prop :=
  x.creator = .returned .unsuccess ∨ x.creator = .returned .success ∧ x.child = .done

/-- In a state of a run, a step that is proper is not raced. -/
theorem Inv.not_raced {a : Act} (hi : Inv x) (hp : Proper x a) : ¬ Raced x a := by
  rintro (⟨rfl, hunlock, hstale⟩ | ⟨rfl, hdestroy, -, hne⟩)
  · -- the creator holds the mutex, so the child cannot have got past its lock
    have hran := hp.1 rfl hunlock
    have hret := hi.early hstale (ChildPc.locked_of_ran hran)
    rw [hunlock] at hret
    cases hret
  · obtain ⟨st, hst⟩ := hp.2 rfl (Or.inl hdestroy)
    have htold := hi.told_of_mutexDestroy hdestroy
    rw [hst] at htold hne
    cases st <;> first | exact hne rfl | cases htold

/-- In a run without raced steps a step that is not raced is proper. -/
theorem Clean.proper {a : Act} (hi : Inv x) (hc : Clean x) (ha : ¬ Raced x a) : Proper x a := by
  refine ⟨?_, ?_⟩
  · rintro rfl hunlock
    rcases hi.seen (by rw [hunlock]; rfl) with hstale | hran
    · exact absurd (Or.inl ⟨rfl, hunlock, hstale⟩) ha
    · exact hran
  · rintro rfl (hdestroy | hcond | hfree)
    · by_contra hno
      refine ha (Or.inr ⟨rfl, hdestroy, hi.told_of_mutexDestroy hdestroy, ?_⟩)
      exact fun hret => hno ⟨_, hret⟩
    · exact ⟨_, hc.gone (by rw [hcond]; rfl)⟩
    · exact ⟨_, hc.gone (by rw [hfree]; rfl)⟩

/-- **Thread start handshake.**  In every run of any number of calls of `psmgrCreateThread` and
    their threads no context is freed twice, and it has been freed once when both parties are
    done.  The creator returns success only after its child has set `THREAD_STATUS_RUNNING`, and
    the child destroys and frees the context only when the creator has no step left that uses it,
    in exactly those runs in which no step is raced: no creator returns on a bit that `malloc`
    left, and no child destroys the mutex while its creator is on its way from the wake-up to its
    unlock.  (After a raced step the first part rests on the guards of `creatorStep` and `ctxStep`:
    a creator whose mutex is destroyed or whose context is freed has no further step here, and
    what it would do to that memory is not described.) -/
theorem handshake (hr : Run step (fun _ => Ctx.start) h s) :
    (∀ c, (s c).frees ≤ 1 ∧ (Finished (s c) → (s c).frees = 1)) ∧
    ((∀ p ∈ h, Proper (p.1 p.2.1) p.2.2) ↔ ∀ p ∈ h, ¬ Raced (p.1 p.2.1) p.2.2) := by
  have hinv : ∀ x a x', Inv x → True → ctxStep x a = some x' → Inv x' :=
    fun _ _ _ hi _ hs => inv_ctxStep hi hs
  refine ⟨fun c => ?_, ?_, ?_⟩
  · have hi : Inv (s c) :=
      hr.invariant_each (fun _ _ => True) Inv inv_start hinv (fun _ _ => trivial) c
    have hfrees := hi.frees
    refine ⟨by split at hfrees <;> omega, ?_⟩
    rintro (hun | ⟨-, hdone⟩)
    · rw [hfrees, if_pos (Or.inr hun)]
    · rw [hfrees, if_pos (Or.inl hdone)]
  · -- a raced step is not proper, whatever was before it
    intro hproper p hp
    have hi : Inv (p.1 p.2.1) :=
      hr.invariant_each_reached (fun _ _ => True) Inv inv_start hinv (fun _ _ => trivial) hp _
    exact hi.not_raced (hproper p hp)
  · intro hraced p hp
    -- without raced steps both invariants hold before every step
    have hboth : Inv (p.1 p.2.1) ∧ Clean (p.1 p.2.1) :=
      hr.invariant_each_reached (fun x a => ¬ Raced x a) (fun x => Inv x ∧ Clean x)
        ⟨inv_start, by rintro ⟨⟩, by rintro ⟨⟩⟩
        (fun _ _ _ hi ha hs => ⟨inv_ctxStep hi.1 hs, clean_ctxStep hi.1 hi.2 ha hs⟩) hraced hp _
    exact hboth.2.proper hboth.1 (hraced p hp)

instance (x : Ctx) (a : Act) : Decidable (Raced x a) := by
  unfold Raced
  infer_instance

/-- A call up to the point where the creator sleeps, and then the child up to its unlock. -/
def untilUnlocked : List (Unit × Act) :=
  [.call 3, .malloc (some false), .creator, .creator, .create 0, .creator, .add true, .creator,
    .creator, .child, .child, .child, .child].map ((), ·)

/-- The creator gives the mutex back before the child destroys it. -/
theorem handshake_one_thread : ∃ h s, Run step (fun _ : Unit => Ctx.start) h s ∧
    (∀ p ∈ h, Proper (p.1 p.2.1) p.2.2) ∧ (s ()).frees = 1 := by
  obtain ⟨h, s, hr, hok, hend⟩ := exists_run_of_play step (fun _ : Unit => Ctx.start)
    (fun s l => !decide (Raced (s l.1) l.2))
    (fun s => s () = ⟨true, false, none, false, false, 1, .returned .success, .done⟩)
    (untilUnlocked ++ [.creator, .creator, .creator, .creator, .child, .child, .child].map ((), ·))
    (by decide)
  have hraced : ∀ p ∈ h, ¬ Raced (p.1 p.2.1) p.2.2 := by
    intro p hp
    simpa using hok p hp
  rw [decide_eq_true_eq] at hend
  have hfinished : Finished (s ()) := by
    rw [hend]
    exact Or.inr ⟨rfl, rfl⟩
  exact ⟨h, s, hr, (handshake hr).2.mpr hraced, ((handshake hr).1 ()).2 hfinished⟩

/-- The child destroys the mutex that the creator has been woken to take; and if `malloc` has
    left the bit set, the creator returns success before the child has done anything. -/
theorem handshake_raced :
    (∃ h s, Run step (fun _ : Unit => Ctx.start) h s ∧ (s ()).stale = false ∧
      (s ()).creator = .woken ∧ (s ()).child = .mutexDestroy ∧
      ¬ Proper (s ()) .child ∧ (step s ((), .child)).isSome = true) ∧
    (∃ h s, Run step (fun _ : Unit => Ctx.start) h s ∧
      (s ()).creator = .unlock ∧ (s ()).child = .add ∧
      ¬ Proper (s ()) .creator ∧ (step s ((), .creator)).isSome = true) := by
  constructor
  · obtain ⟨h, s, hr, -, hend⟩ := exists_run_of_play step (fun _ : Unit => Ctx.start)
      (fun _ _ => true)
      (fun s => s () = ⟨true, false, none, true, true, 0, .woken, .mutexDestroy⟩)
      untilUnlocked (by decide)
    rw [decide_eq_true_eq] at hend
    refine ⟨h, s, hr, ?_⟩
    unfold step each
    rw [hend]
    refine ⟨rfl, rfl, rfl, ?_, rfl⟩
    intro hproper
    -- the creator has been woken up, but has not returned
    obtain ⟨st, hst⟩ := hproper.2 rfl (Or.inl rfl)
    cases hst
  · obtain ⟨h, s, hr, -, hend⟩ := exists_run_of_play step (fun _ : Unit => Ctx.start)
      (fun _ _ => true)
      (fun s => s () = ⟨true, true, some .creator, true, true, 0, .unlock, .add⟩)
      ([.call 3, .malloc (some true), .creator, .creator, .create 0, .creator, .creator,
        .creator].map ((), ·)) (by decide)
    rw [decide_eq_true_eq] at hend
    refine ⟨h, s, hr, ?_⟩
    unfold step each
    rw [hend]
    exact ⟨rfl, rfl, fun hproper => absurd (hproper.1 rfl rfl) (by decide), rfl⟩

end Niuchacz.Psmgr.Handshake
