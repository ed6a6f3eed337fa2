import Niuchacz.Lib.Locks
import Niuchacz.Queue.View

namespace Niuchacz.Queue

open Lib.Locks (Counted counted_zero)
open Lib.Transition

/-!
# The clients of a queue

A thread registers with `queue_consumer_new` or `queue_producer_new`, uses the queue, and leaves
with `queue_consumer_free` or `queue_producer_free`; one thread calls `queue_destroy`.

* `Role` — where a thread is as far as registration and destruction are concerned.
* `Clients`, `clientStep` — the queue with clients that register before they use it.
* `Next` — the registration protocol: how a step changes the thread's role and registrations,
  the two counters and `_isActive`; `next_of_step` shows that every step of a client is one.
* `Roster` — the invariant: the counters are the numbers of the registered threads, and a side
  whose counter `queue_destroy` has seen at zero stays empty.
* `destroyed_untouched` — what the other threads have left to do when the queue is freed.
-/

variable {ι : Type} {q : QueueT ι} {t : ι} {o : Outcome ι}

/-! ### Roles -/

/-- Where a thread is.  A `queue_destroy` that sleeps is on its way to the next test. -/
inductive Role where
  | idle
  | write
  | read
  | new (k : Side) (p : NPc)
  | free (k : Side) (p : FPc)
  | destroy (p : DPc)
  deriving DecidableEq

def Pc.role : Pc → Role
  | .idle => .idle
  | .write _ _ _ => .write
  | .read _ _ => .read
  | .new k p => .new k p
  | .free k p => .free k p
  | .destroy (.asleep k) => .destroy (.woken k)
  | .destroy p => .destroy p

def Call.role : Call → Role
  | .write _ _ => .write
  | .read _ => .read
  | .new k => .new k .lock
  | .free k => .free k .lock
  | .destroy => .destroy .flag

/-- A broadcast does not change the role of a thread. -/
theorem Pc.role_signalled (g : Option Side) (p : Pc) : (p.signalled g).role = p.role := by
  cases g with
  | none => rfl
  | some k =>
    simp only [Pc.signalled]
    unfold Pc.wake
    split
    · rfl
    · rfl
    · split <;> rfl
    · rfl

/-- The roles that are one program counter. -/
theorem Pc.eq_of_role {p : Pc} :
    (p.role = .idle → p = .idle) ∧ (∀ k n, p.role = .new k n → p = .new k n) ∧
      (∀ k f, p.role = .free k f → p = .free k f) ∧
      (∀ k, p.role = .destroy (.test k) → p = .destroy (.test k)) ∧
      (∀ k, p.role = .destroy (.wait k) → p = .destroy (.wait k)) := by
  cases p with
  | destroy p => cases p <;> simp [Pc.role]
  | _ => simp [Pc.role]

/-! ### Clients -/

/-- The queue with its clients: who is registered on which side, from the end of a successful
    `queue_*_new` to the call of `queue_*_free`, and who has called `queue_destroy`. -/
structure Clients (ι : Type) where
  state : State ι
  reg : Side → ι → Bool
  destroyer : Option ι

/-- A new queue that nobody has registered with. -/
def Clients.start (ι : Type) (size : ℕ) : Clients ι := ⟨queueCreate ι size, fun _ _ => false, none⟩

/-- What a client may call: only registered threads use the queue, with buffers that exist, and
    leave it, and `queue_destroy` is called once, by a thread that is not registered. -/
def Clients.allowed (c : Clients ι) (t : ι) : Act → Bool
  | .call (.write e _) => c.reg .write t && e.readable
  | .call (.read _) => c.reg .read t
  | .call (.new k) => !c.reg k t
  | .call (.free k) => c.reg k t
  | .call .destroy => c.destroyer.isNone && !c.reg .read t && !c.reg .write t
  | _ => true

/-- Where a client is. -/
def Clients.role (c : Clients ι) (t : ι) : Role := (c.state.pc t).role

/-- The sides on which a client is registered. -/
def Clients.own (c : Clients ι) (t : ι) (k : Side) : Bool := c.reg k t

section
variable [DecidableEq ι]

/-- Set the registration of one thread on one side. -/
def setReg (reg : Side → ι → Bool) (k : Side) (t : ι) (v : Bool) : Side → ι → Bool :=
  fun k' u => if u = t then Function.update (fun k => reg k t) k v k' else reg k' u

/-- Who is registered after a step. -/
def Clients.regAfter (c : Clients ι) (t : ι) (a : Act) : Side → ι → Bool :=
  match a, c.state.pc t with
  | .call (.free k), _ => setReg c.reg k t false
  | .go, .new k (.unlock true) => setReg c.reg k t true
  | _, _ => c.reg

/-- Who has called `queue_destroy` after a step. -/
def Clients.destroyerAfter (c : Clients ι) (t : ι) : Act → Option ι
  | .call .destroy => some t
  | _ => c.destroyer

/-- A step of a client. -/
def clientStep (c : Clients ι) (l : ι × Act) : Option (Clients ι) :=
  if c.allowed l.1 l.2 then
    (step c.state l).map fun s => ⟨s, c.regAfter l.1 l.2, c.destroyerAfter l.1 l.2⟩
  else none

end

/-! ### The registration protocol -/

/-- A step of a thread with the registrations `g`, by the values of the counters and of
    `_isActive` before it. -/
inductive Next (n : Side → ℤ) (b : Bool) (g : Side → Bool) :
    Role → Role → (Side → Bool) → (Side → ℤ) → Bool → Prop where
  | write (hg : g .write = true) : Next n b g .idle .write g n b
  | writing : Next n b g .write .write g n b
  | written : Next n b g .write .idle g n b
  | read (hg : g .read = true) : Next n b g .idle .read g n b
  | reading : Next n b g .read .read g n b
  | hasRead : Next n b g .read .idle g n b
  | new (k : Side) (hg : g k = false) : Next n b g .idle (.new k .lock) g n b
  | newLock (k : Side) : Next n b g (.new k .lock) (.new k .test) g n b
  | newAdmit (k : Side) (hb : b = true) : Next n b g (.new k .test) (.new k .inc) g n b
  | newRefuse (k : Side) (hb : b = false) :
      Next n b g (.new k .test) (.new k (.unlock false)) g n b
  | newInc (k : Side) :
      Next n b g (.new k .inc) (.new k (.unlock true)) g (Function.update n k (n k + 1)) b
  | newSucceed (k : Side) :
      Next n b g (.new k (.unlock true)) .idle (Function.update g k true) n b
  | newFail (k : Side) : Next n b g (.new k (.unlock false)) .idle g n b
  | free (k : Side) (hg : g k = true) :
      Next n b g .idle (.free k .lock) (Function.update g k false) n b
  | freeLock (k : Side) : Next n b g (.free k .lock) (.free k .dec) g n b
  | freeDec (k : Side) :
      Next n b g (.free k .dec) (.free k .unlock) g (Function.update n k (n k + -1)) b
  | freeUnlock (k : Side) : Next n b g (.free k .unlock) (.free k .broadcast) g n b
  | freeBroadcast (k : Side) : Next n b g (.free k .broadcast) .idle g n b
  | destroy (hg : ∀ k, g k = false) : Next n b g .idle (.destroy .flag) g n b
  | flag : Next n b g (.destroy .flag) (.destroy (.lock .write)) g n false
  | destroyLock (k : Side) : Next n b g (.destroy (.lock k)) (.destroy (.test k)) g n b
  | destroyWait (k : Side) (hn : n k > 0) :
      Next n b g (.destroy (.test k)) (.destroy (.wait k)) g n b
  | destroyPass (k : Side) (hn : ¬ n k > 0) :
      Next n b g (.destroy (.test k)) (.destroy (.unlock k)) g n b
  | destroySleep (k : Side) : Next n b g (.destroy (.wait k)) (.destroy (.woken k)) g n b
  | destroyWake (k : Side) : Next n b g (.destroy (.woken k)) (.destroy (.woken k)) g n b
  | destroyWoken (k : Side) : Next n b g (.destroy (.woken k)) (.destroy (.test k)) g n b
  | destroyUnlock (k : Side) :
      Next n b g (.destroy (.unlock k)) (.destroy (if k = .write then .lock .read else .free)) g n b
  | destroyFree : Next n b g (.destroy .free) .idle g n b

@[simp] theorem registered_setMutex (q : QueueT ι) (k : Side) (x : Option ι) :
    (q.setMutex k x).registered = q.registered := by
  funext k'
  cases k <;> cases k' <;> rfl

@[simp] theorem isActive_setMutex (q : QueueT ι) (k : Side) (x : Option ι) :
    (q.setMutex k x).isActive = q.isActive := by
  cases k <;> rfl

theorem registered_addRegistered (q : QueueT ι) (k : Side) (d : ℤ) :
    (q.addRegistered k d).registered = Function.update q.registered k (q.registered k + d) := by
  funext k'
  cases k <;> cases k' <;> rfl

@[simp] theorem isActive_addRegistered (q : QueueT ι) (k : Side) (d : ℤ) :
    (q.addRegistered k d).isActive = q.isActive := by
  cases k <;> rfl

/-- Two queues with the same clients. -/
def SameClients (q q' : QueueT ι) : Prop :=
  q'.registered = q.registered ∧ q'.isActive = q.isActive ∧ q'.freed = q.freed

theorem sameClients_lockThen {k : Side} {p : Pc} (h : lockThen q k t p = some o) :
    SameClients q o.q := by
  rw [(lockThen_some h).1]
  exact ⟨registered_setMutex q k _, isActive_setMutex q k _, by cases k <;> rfl⟩

/-- `queue_write` leaves the counters and the flag alone. -/
theorem stepWrite_sameClients {e : Entry} {timed : Bool} {p : WPc}
    (h : stepWrite q t e timed p = some o) : SameClients q o.q := by
  cases p
  case lock => exact sameClients_lockThen h
  case woken timedOut => exact sameClients_lockThen h
  all_goals
    simp only [stepWrite, goto] at h
    repeat' split at h
    all_goals
      cases h
      try exact ⟨rfl, rfl, rfl⟩

/-- `queue_read` leaves the counters and the flag alone. -/
theorem stepRead_sameClients {timed : Bool} {p : RPc} (h : stepRead q t timed p = some o) :
    SameClients q o.q := by
  cases p
  case lock => exact sameClients_lockThen h
  case woken timedOut => exact sameClients_lockThen h
  all_goals
    simp only [stepRead, goto] at h
    repeat' split at h
    all_goals
      cases h
      try exact ⟨rfl, rfl, rfl⟩

section
variable [DecidableEq ι] {c c' : Clients ι} {a : Act}

/-- The thread's registrations after one of them has been set. -/
theorem own_setReg (c : Clients ι) (t : ι) (k : Side) (v : Bool) :
    (fun k' => setReg c.reg k t v k' t) = Function.update (c.own t) k v := by
  funext k'
  exact if_pos rfl

/-- **Refinement.**  Every step of a client is a step of the registration protocol. -/
theorem next_of_step (ha : c.allowed t a = true)
    (h : outcome c.state.q t (c.state.pc t) a = some o) :
    Next c.state.q.registered c.state.q.isActive (c.own t) (c.role t) o.pc.role
      (fun k => c.regAfter t a k t) o.q.registered o.q.isActive := by
  unfold Clients.role Clients.regAfter
  generalize c.state.pc t = p at h ⊢
  generalize c.state.q = q at h ⊢
  rcases (outcome_some h).2 with ⟨call, rfl, rfl, rfl⟩ | ⟨rfl, hgo⟩ | ⟨timedOut, rfl, hwake⟩
  · -- a call starts only where the client is allowed to make it
    cases call with
    | write e timed => exact Next.write ((Bool.and_eq_true _ _).mp ha).1
    | read timed => exact Next.read ha
    | new k => exact Next.new k ((Bool.not_eq_true' _).mp ha)
    | free k =>
      rw [own_setReg]
      exact Next.free k ha
    | destroy =>
      simp only [Clients.allowed, Bool.and_eq_true, Bool.not_eq_true'] at ha
      refine Next.destroy fun k => ?_
      cases k
      · exact ha.1.2
      · exact ha.2
  · -- a lock leaves the counters and the flag alone
    have hlock : ∀ {k : Side} {p' : Pc} {r : Role}, lockThen q k t p' = some o →
        Next q.registered q.isActive (c.own t) r p'.role (c.own t) q.registered q.isActive →
        Next q.registered q.isActive (c.own t) r o.pc.role (c.own t) o.q.registered
          o.q.isActive := by
      intro k p' r hl hn
      rw [(sameClients_lockThen hl).1, (sameClients_lockThen hl).2.1, (lockThen_some hl).2.1]
      exact hn
    cases p with
    | idle => cases hgo
    | write e timed p =>
      obtain ⟨hn, hb, -⟩ := stepWrite_sameClients hgo
      rw [hn, hb]
      rcases stepWrite_pc hgo with hpc | ⟨p', hpc⟩ <;> rw [hpc]
      · exact Next.written
      · exact Next.writing
    | read timed p =>
      obtain ⟨hn, hb, -⟩ := stepRead_sameClients hgo
      rw [hn, hb]
      rcases stepRead_pc hgo with hpc | ⟨p', hpc⟩ <;> rw [hpc]
      · exact Next.hasRead
      · exact Next.reading
    | new k p =>
      cases p with
      | lock => exact hlock hgo (Next.newLock k)
      | test =>
        simp only [stepGo, stepNew, goto] at hgo
        split at hgo
        · rename_i hb
          cases hgo
          exact Next.newAdmit k hb
        · rename_i hb
          cases hgo
          exact Next.newRefuse k (by simpa using hb)
      | inc =>
        cases hgo
        rw [registered_addRegistered, isActive_addRegistered]
        exact Next.newInc k
      | unlock success =>
        cases hgo
        rw [registered_setMutex, isActive_setMutex]
        cases success
        · exact Next.newFail k
        · rw [own_setReg]
          exact Next.newSucceed k
    | free k p =>
      cases p with
      | lock => exact hlock hgo (Next.freeLock k)
      | dec =>
        cases hgo
        rw [registered_addRegistered, isActive_addRegistered]
        exact Next.freeDec k
      | unlock =>
        cases hgo
        rw [registered_setMutex, isActive_setMutex]
        exact Next.freeUnlock k
      | broadcast =>
        cases hgo
        exact Next.freeBroadcast k
    | destroy p =>
      cases p with
      | flag =>
        cases hgo
        exact Next.flag
      | lock k => exact hlock hgo (Next.destroyLock k)
      | test k =>
        simp only [stepGo, stepDestroy, goto] at hgo
        split at hgo
        · rename_i hn
          cases hgo
          exact Next.destroyWait k hn
        · rename_i hn
          cases hgo
          exact Next.destroyPass k hn
      | wait k =>
        cases hgo
        rw [registered_setMutex, isActive_setMutex]
        exact Next.destroySleep k
      | asleep k => cases hgo
      | woken k => exact hlock hgo (Next.destroyWoken k)
      | unlock k =>
        cases hgo
        rw [registered_setMutex, isActive_setMutex]
        cases k
        · exact Next.destroyUnlock .read
        · exact Next.destroyUnlock .write
      | free =>
        cases hgo
        exact Next.destroyFree
  · rcases stepWake_some hwake with ⟨e, timed, rfl, rfl⟩ | ⟨timed, rfl, rfl⟩ | ⟨k, rfl, rfl⟩
    · exact Next.writing
    · exact Next.reading
    · exact Next.destroyWake k

end

/-! ### What a step of the protocol preserves -/

section
variable {n n' : Side → ℤ} {b b' : Bool} {g g' : Side → Bool} {r r' : Role}

/-- A thread that writes or reads is registered for it; one that is about to register, that is
    leaving or that destroys the queue is not. -/
def Role.agrees (g : Side → Bool) : Role → Prop
  | .idle => True
  | .write => g .write = true
  | .read => g .read = true
  | .new k _ | .free k _ => g k = false
  | .destroy _ => ∀ k, g k = false

/-- The thread is among those that the counter of side `k` counts. -/
def Role.member (k : Side) (g : Side → Bool) : Role → Bool
  | .new k' (.unlock true) | .free k' .lock | .free k' .dec => g k || k' = k
  | _ => g k

/-- The thread is not counted on side `k`, and it is neither about to be nor just removed. -/
def Role.Out (k : Side) (g : Side → Bool) (r : Role) : Prop :=
  r.member k g = false ∧ r ≠ .new k .inc ∧ r ≠ .free k .unlock

/-- `queue_destroy` has seen the counter of side `k` at zero. -/
def DPc.past (k : Side) : DPc → Bool
  | .flag | .lock .write | .test .write | .wait .write | .asleep .write | .woken .write => false
  | .unlock .write | .lock .read | .test .read | .wait .read | .asleep .read | .woken .read =>
      k = .write
  | .unlock .read | .free => true

/-- The permitted transitions keep the registration of a thread and where it stands in agreement. -/
theorem Next.agrees (h : Next n b g r r' g' n' b') (hr : r.agrees g) : r'.agrees g' := by
  cases h <;> simp_all [Role.agrees]

/-- A counter changes as the membership of the thread does. -/
theorem Next.count (h : Next n b g r r' g' n' b') (hr : r.agrees g) (k : Side) :
    n' k + (r.member k g).toNat = n k + (r'.member k g').toNat := by
  cases h
  -- only these four change a counter or a membership, each by one on the same side
  case newInc k' =>
    rcases eq_or_ne k' k with rfl | hk
    · have hg : g k' = false := hr
      simp [Role.member, hg]
    · simp [Role.member, hk, Function.update_of_ne hk.symm]
  case newSucceed k' =>
    rcases eq_or_ne k' k with rfl | hk
    · simp [Role.member]
    · simp [Role.member, hk, Function.update_of_ne hk.symm]
  case free k' hg =>
    rcases eq_or_ne k' k with rfl | hk
    · simp [Role.member, hg]
    · simp [Role.member, hk, Function.update_of_ne hk.symm]
  case freeDec k' =>
    rcases eq_or_ne k' k with rfl | hk
    · have hg : g k' = false := hr
      simp [Role.member, hg]
    · simp [Role.member, hk, Function.update_of_ne hk.symm]
  all_goals simp [Role.member]

/-- Only `queue_destroy` changes `_isActive`. -/
theorem Next.active (h : Next n b g r r' g' n' b') : b' = b ∨ r = .destroy .flag ∧ b' = false := by
  cases h <;> simp

/-- A counter is changed by a thread about to register or to leave. -/
theorem Next.changes (h : Next n b g r r' g' n' b') (k : Side) :
    n' k = n k ∨ r = .new k .inc ∨ r = .free k .dec := by
  cases h
  case newInc k' =>
    rcases eq_or_ne k' k with rfl | hk
    · exact Or.inr (Or.inl rfl)
    · exact Or.inl (Function.update_of_ne hk.symm _ _)
  case freeDec k' =>
    rcases eq_or_ne k' k with rfl | hk
    · exact Or.inr (Or.inr rfl)
    · exact Or.inl (Function.update_of_ne hk.symm _ _)
  all_goals exact Or.inl rfl

/-- `queue_destroy` goes to wait only after it has seen somebody registered. -/
theorem Next.to_wait {k : Side} (h : Next n b g r (.destroy (.wait k)) g' n' b') :
    0 < n' k := by
  generalize hr' : Role.destroy (.wait k) = r' at h
  cases h
  case destroyWait k' hn =>
    cases hr'
    exact hn
  case destroyUnlock k' => cases k' <;> cases hr'
  all_goals cases hr'

/-- **Nobody joins a destroyed side.**  While `_isActive` is false, a thread outside a side stays
    outside. -/
theorem Next.out {k : Side} (h : Next n false g r r' g' n' b') (hr : r.agrees g)
    (hout : r.Out k g) : r'.Out k g' := by
  obtain ⟨hm, hinc, hdec⟩ := hout
  cases h
  case newSucceed k' =>
    obtain ⟨hg, hk⟩ : g k = false ∧ k' ≠ k := by simpa [Role.member] using hm
    simp [Role.Out, Role.member, Function.update_of_ne hk.symm, hg]
  case free k' hg =>
    have hk : k' ≠ k := by
      rintro rfl
      simp [Role.member, hg] at hm
    have hg' : g k = false := hm
    simp [Role.Out, Role.member, Function.update_of_ne hk.symm, hk, hg']
  all_goals simp_all [Role.Out, Role.member]

/-- `queue_destroy` passes a side only by seeing its counter at zero. -/
theorem Next.past {k : Side} {p' : DPc} (h : Next n b g r (.destroy p') g' n' b')
    (hp : p'.past k = true) :
    (∃ p, r = .destroy p ∧ p.past k = true) ∨ r = .destroy (.test k) ∧ n k ≤ 0 := by
  cases h
  case destroyPass k' hn =>
    rcases eq_or_ne k' k with rfl | hk
    · exact Or.inr ⟨rfl, not_lt.mp hn⟩
    · cases k <;> cases k' <;> simp_all [DPc.past]
  case destroy => cases k <;> simp [DPc.past] at hp
  case flag => cases k <;> simp [DPc.past] at hp
  case destroyWait k' hn =>
    exact Or.inl ⟨.test k', rfl, by cases k <;> cases k' <;> simp_all [DPc.past]⟩
  all_goals
    rename_i k'
    refine Or.inl ⟨_, rfl, ?_⟩
    cases k <;> cases k' <;> simp_all [DPc.past]

end

/-! ### What a step of a client does -/

section
variable {c c' : Clients ι} {a : Act}

/-- Only the last step of `queue_destroy` frees the queue. -/
theorem freed_of_outcome {p : Pc} (h : outcome q t p a = some o) (hf : o.q.freed = true) :
    p = .destroy .free ∧ o.pc = .idle := by
  obtain ⟨hnot, hkind⟩ := outcome_some h
  -- a step that does not write the flag cannot have set it
  have hkeep : o.q.freed = q.freed → p = .destroy .free ∧ o.pc = .idle := by
    intro hs
    rw [hs, hnot] at hf
    cases hf
  rcases hkind with ⟨call, -, -, rfl⟩ | ⟨-, hgo⟩ | ⟨timedOut, -, hwake⟩
  · exact hkeep rfl
  · cases p with
    | idle => cases hgo
    | write e timed p => exact hkeep (stepWrite_sameClients hgo).2.2
    | read timed p => exact hkeep (stepRead_sameClients hgo).2.2
    | new k p =>
      cases p with
      | lock => exact hkeep (sameClients_lockThen hgo).2.2
      | test =>
        simp only [stepGo, stepNew, goto] at hgo
        split at hgo <;> cases hgo <;> exact hkeep rfl
      | _ => cases hgo; cases k <;> exact hkeep rfl
    | free k p =>
      cases p with
      | lock => exact hkeep (sameClients_lockThen hgo).2.2
      | _ => cases hgo; cases k <;> exact hkeep rfl
    | destroy p =>
      cases p with
      | lock k => exact hkeep (sameClients_lockThen hgo).2.2
      | woken k => exact hkeep (sameClients_lockThen hgo).2.2
      | test k =>
        simp only [stepGo, stepDestroy, goto] at hgo
        split at hgo <;> cases hgo <;> exact hkeep rfl
      | flag => cases hgo; exact hkeep rfl
      | wait k => cases hgo; cases k <;> exact hkeep rfl
      | asleep k => cases hgo
      | unlock k => cases hgo; cases k <;> exact hkeep rfl
      | free => cases hgo; exact ⟨rfl, rfl⟩
  · rcases stepWake_some hwake with ⟨e, timed, -, rfl⟩ | ⟨timed, -, rfl⟩ | ⟨k, -, rfl⟩ <;>
      exact hkeep rfl

/-- `queue_destroy` is entered by calling it. -/
theorem destroyerAfter_of_idle {p : DPc} (hidle : c.state.pc t = .idle)
    (h : outcome c.state.q t (c.state.pc t) a = some o) (hp : o.pc.role = .destroy p) :
    c.destroyerAfter t a = some t := by
  rw [hidle] at h
  rcases (outcome_some h).2 with ⟨call, rfl, -, rfl⟩ | ⟨rfl, hgo⟩ | ⟨timedOut, rfl, hwake⟩
  · cases call <;> simp [Call.start, Pc.role] at hp
    rfl
  · cases hgo
  · cases hwake

/-- What a step of the client `t` does to the roles and registrations. -/
structure Clients.Moves (c : Clients ι) (t : ι) (c' : Clients ι) : Prop where
  next : Next c.state.q.registered c.state.q.isActive (c.own t) (c.role t) (c'.role t) (c'.own t)
    c'.state.q.registered c'.state.q.isActive
  role : ∀ u, u ≠ t → c'.role u = c.role u
  own : ∀ u, u ≠ t → c'.own u = c.own u
  destroyer : c'.destroyer = c.destroyer ∨ c.destroyer = none ∧ c'.destroyer = some t
  calls : ∀ p, c.role t = .idle → c'.role t = .destroy p → c'.destroyer = some t
  freed : c'.state.q.freed = true → c.role t = .destroy .free ∧ c'.role t = .idle
  exclusive : Exclusive c.state → Exclusive c'.state

/-- What holds of every thread before a step and of the thread that moves after it holds of every
    thread after it. -/
theorem Clients.Moves.forall (h : c.Moves t c') {P : Role → (Side → Bool) → Prop}
    (hP : ∀ u, P (c.role u) (c.own u)) (ht : P (c'.role t) (c'.own t)) (u : ι) :
    P (c'.role u) (c'.own u) := by
  by_cases hu : u = t
  · rw [hu]
    exact ht
  · rw [h.role u hu, h.own u hu]
    exact hP u

variable [DecidableEq ι]

/-- A step leaves the registrations of the other threads alone. -/
theorem regAfter_of_ne (c : Clients ι) (a : Act) {u : ι} (hu : u ≠ t) (k : Side) :
    c.regAfter t a k u = c.reg k u := by
  have hreg : c.regAfter t a = c.reg ∨ ∃ k v, c.regAfter t a = setReg c.reg k t v := by
    unfold Clients.regAfter
    split
    · exact Or.inr ⟨_, _, rfl⟩
    · exact Or.inr ⟨_, _, rfl⟩
    · exact Or.inl rfl
  rcases hreg with hreg | ⟨k', v, hreg⟩ <;> rw [hreg]
  exact if_neg hu

/-- A step of a client is an allowed step of the queue. -/
theorem clientStep_some (h : clientStep c (t, a) = some c') :
    c.allowed t a = true ∧ ∃ o, outcome c.state.q t (c.state.pc t) a = some o ∧
      c' = ⟨c.state.apply t o, c.regAfter t a, c.destroyerAfter t a⟩ := by
  unfold clientStep at h
  split at h
  · rename_i hallowed
    obtain ⟨s, hs, rfl⟩ := Option.map_eq_some_iff.mp h
    obtain ⟨o, ho, rfl⟩ := Option.map_eq_some_iff.mp hs
    exact ⟨hallowed, o, ho, rfl⟩
  · cases h

/-- Every step of a client is such a transition of its thread, and of no other. -/
theorem moves_of_step (h : clientStep c (t, a) = some c') : c.Moves t c' := by
  obtain ⟨hallowed, o, ho, rfl⟩ := clientStep_some h
  have hself : (Clients.mk (c.state.apply t o) (c.regAfter t a) (c.destroyerAfter t a)).role t =
      o.pc.role := by
    simp [Clients.role, State.apply]
  refine ⟨?_, ?_, fun u hu => funext (regAfter_of_ne c a hu), ?_, ?_, fun hf => ?_,
    fun hx => exclusive_apply hx ho⟩
  · rw [hself]
    exact next_of_step hallowed ho
  · intro u hu
    simp [Clients.role, State.apply, Function.update_of_ne hu, Pc.role_signalled]
  -- only one thread may call `queue_destroy`
  · simp only [Clients.destroyerAfter]
    split
    · simp only [Clients.allowed, Bool.and_eq_true, Option.isNone_iff_eq_none] at hallowed
      exact Or.inr ⟨hallowed.1.1, rfl⟩
    · exact Or.inl rfl
  · intro p hidle hp
    exact destroyerAfter_of_idle (Pc.eq_of_role.1 hidle) ho (hself ▸ hp)
  · obtain ⟨hp, hp'⟩ := freed_of_outcome ho hf
    rw [hself, hp', Clients.role, hp]
    exact ⟨rfl, rfl⟩

end

/-! ### The invariant -/

section
variable {c c' : Clients ι}

/-- The registrations agree with where the threads are, the counters are the numbers of
    registered threads, and what `queue_destroy` has passed is empty. -/
structure Roster (c : Clients ι) : Prop where
  exclusive : Exclusive c.state
  agrees : ∀ t, (c.role t).agrees (c.own t)
  counted : ∀ k, Counted (fun t => (c.role t).member k (c.own t)) (c.state.q.registered k)
  destroyer : ∀ t p, c.role t = .destroy p → c.destroyer = some t
  flagged : ∀ t p, c.role t = .destroy p → p ≠ .flag → c.state.q.isActive = false
  sealed : ∀ t p k, c.role t = .destroy p → p.past k = true → ∀ u, (c.role u).Out k (c.own u)
  waits : ∀ t k, c.role t = .destroy (.wait k) → 0 < c.state.q.registered k
  freed : c.state.q.freed = true → ∀ t p, c.role t ≠ .destroy p

theorem roster_start (size : ℕ) : Roster (Clients.start ι size) where
  exclusive := exclusive_queueCreate size
  agrees _ := trivial
  counted k := by
    have hzero : (Clients.start ι size).state.q.registered k = 0 := by cases k <;> rfl
    rw [hzero]
    exact counted_zero
  destroyer _ _ h := by cases h
  flagged _ _ h := by cases h
  sealed _ _ _ h := by cases h
  waits _ _ h := by cases h
  freed h := by cases h

/-- Only one thread is in `queue_destroy`. -/
theorem Roster.unique (hc : Roster c) {t u : ι} {p p' : DPc} (ht : c.role t = .destroy p)
    (hu : c.role u = .destroy p') : t = u := by
  have h := hc.destroyer t p ht
  rw [hc.destroyer u p' hu] at h
  exact (Option.some.inj h).symm

/-- A thread in `queue_destroy` has got there by a step of `queue_destroy`, or has just called
    it. -/
theorem Next.to_destroy {n n' : Side → ℤ} {b b' : Bool} {g g' : Side → Bool} {r : Role} {p' : DPc}
    (h : Next n b g r (.destroy p') g' n' b') :
    (∃ p, r = .destroy p ∧ (p ≠ .flag → b' = b) ∧ (p = .flag → b' = false)) ∨
      r = .idle ∧ p' = .flag := by
  cases h <;> simp

/-- The threads on a side that `queue_destroy` sees empty: it holds the side's mutex, so nobody
    is between a test and a change of the counter. -/
theorem Roster.out_of_test (hc : Roster c) {k : Side} (ht : c.role t = .destroy (.test k))
    (hn : c.state.q.registered k ≤ 0) (u : ι) : (c.role u).Out k (c.own u) := by
  have hholds : (c.state.pc t).holds k = true := by
    rw [Pc.eq_of_role.2.2.2.1 k ht]
    simp [Pc.holds]
  refine ⟨(hc.counted k).empty hn u, fun hu => ?_, fun hu => ?_⟩
  · have hpc := Pc.eq_of_role.2.1 k .inc hu
    have hut : t = u := hc.exclusive.unique hholds (by simp [hpc, Pc.holds, NPc.inSection])
    rw [hut, hu] at ht
    cases ht
  · have hpc := Pc.eq_of_role.2.2.1 k .unlock hu
    have hut : t = u := hc.exclusive.unique hholds (by simp [hpc, Pc.holds, FPc.inSection])
    rw [hut, hu] at ht
    cases ht

/-- A side that is empty while `_isActive` is false stays empty. -/
theorem Roster.out_step (hc : Roster c) (h : c.Moves t c') {k : Side}
    (hactive : c.state.q.isActive = false) (hout : ∀ u, (c.role u).Out k (c.own u)) (u : ι) :
    (c'.role u).Out k (c'.own u) := by
  have hnext := h.next
  rw [hactive] at hnext
  exact h.forall (P := fun r g => r.Out k g) hout (hnext.out (hc.agrees t) (hout t)) u

/-- A counter changes only under its mutex. -/
theorem Roster.registered_step (hc : Roster c) (h : c.Moves t c') {u : ι} {k : Side} (hu : u ≠ t)
    (hholds : (c.state.pc u).holds k = true) :
    c'.state.q.registered k = c.state.q.registered k := by
  rcases h.next.changes k with hsame | hinc | hdec
  · exact hsame
  · have hpc := Pc.eq_of_role.2.1 k .inc hinc
    exact absurd (hc.exclusive.unique hholds (by simp [hpc, Pc.holds, NPc.inSection])) hu
  · have hpc := Pc.eq_of_role.2.2.1 k .dec hdec
    exact absurd (hc.exclusive.unique hholds (by simp [hpc, Pc.holds, FPc.inSection])) hu

/-- A `queue_destroy` that has passed a side has cleared the flag. -/
theorem DPc.ne_flag_of_past {k : Side} {p : DPc} (h : p.past k = true) : p ≠ .flag := by
  rintro rfl
  cases h

/-- A step keeps the roster. -/
theorem roster_step [DecidableEq ι] (hc : Roster c) (h : c.Moves t c') : Roster c' where
  exclusive := h.exclusive hc.exclusive
  agrees := h.forall (P := fun r g => r.agrees g) hc.agrees (h.next.agrees (hc.agrees t))
  counted k :=
    (hc.counted k).step (fun u hu => by rw [h.role u hu, h.own u hu])
      (h.next.count (hc.agrees t) k)
  destroyer u p' hu := by
    have hkeep : ∀ p, c.role u = .destroy p → c'.destroyer = some u := by
      intro p hp
      have hd := hc.destroyer u p hp
      rcases h.destroyer with hsame | ⟨hnone, -⟩
      · rw [hsame, hd]
      · rw [hnone] at hd
        cases hd
    by_cases hut : u = t
    · subst hut
      have hnext := h.next
      rw [hu] at hnext
      rcases hnext.to_destroy with ⟨p, hp, -⟩ | ⟨hidle, -⟩
      · exact hkeep p hp
      · exact h.calls p' hidle hu
    · rw [h.role u hut] at hu
      exact hkeep p' hu
  flagged u p' hu hp' := by
    by_cases hut : u = t
    · subst hut
      have hnext := h.next
      rw [hu] at hnext
      rcases hnext.to_destroy with ⟨p, hp, hkeep, hclear⟩ | ⟨-, hflag⟩
      · by_cases hflag : p = .flag
        · exact hclear hflag
        · rw [hkeep hflag, hc.flagged u p hp hflag]
      · exact absurd hflag hp'
    · rw [h.role u hut] at hu
      rcases h.next.active with hsame | ⟨-, hfalse⟩
      · rw [hsame, hc.flagged u p' hu hp']
      · exact hfalse
  sealed v p' k hv hpast := by
    by_cases hvt : v = t
    · subst hvt
      have hnext := h.next
      rw [hv] at hnext
      rcases hnext.past hpast with ⟨p, hp, hpp⟩ | ⟨htest, hn⟩
      · exact hc.out_step h (hc.flagged v p hp (DPc.ne_flag_of_past hpp)) (hc.sealed v p k hp hpp)
      · exact hc.out_step h (hc.flagged v _ htest (by rintro ⟨⟩)) (hc.out_of_test htest hn)
    · rw [h.role v hvt] at hv
      exact hc.out_step h (hc.flagged v p' hv (DPc.ne_flag_of_past hpast))
        (hc.sealed v p' k hv hpast)
  waits u k hu := by
    by_cases hut : u = t
    · subst hut
      have hnext := h.next
      rw [hu] at hnext
      exact hnext.to_wait
    · rw [h.role u hut] at hu
      -- the waiter holds the mutex, so nobody else changes the counter
      have hholds : (c.state.pc u).holds k = true := by
        rw [Pc.eq_of_role.2.2.2.2 k hu]
        simp [Pc.holds]
      rw [hc.registered_step h hut hholds]
      exact hc.waits u k hu
  freed hf u p' hu := by
    -- the one destroyer has freed the queue and returned
    obtain ⟨ht, ht'⟩ := h.freed hf
    by_cases hut : u = t
    · rw [hut, ht'] at hu
      cases hu
    · rw [h.role u hut] at hu
      exact hut (hc.unique hu ht)

/-- **The roster is right in every reachable state.** -/
theorem roster_run [DecidableEq ι] {size : ℕ} {h : List (Clients ι × ι × Act)}
    (hrun : Run clientStep (Clients.start ι size) h c) : Roster c :=
  hrun.invariant (fun _ _ => True) Roster (roster_start size)
    (fun _ _ _ hc _ hs => roster_step hc (moves_of_step hs)) (fun _ _ => trivial)

/-! ### Destruction -/

/-- The thread's registration has succeeded and it still has steps that access the queue: it is
    registered, or inside a function other than an unsuccessful registration. -/
def Clients.engaged (c : Clients ι) (t : ι) : Bool :=
  c.reg .read t || c.reg .write t ||
    match c.state.pc t with
    | .write _ _ _ | .read _ _ | .free _ _ | .new _ (.unlock true) => true
    | _ => false

/-- A thread that is outside both sides and has steps left is about to broadcast. -/
theorem broadcast_of_engaged (hc : Roster c) (hout : ∀ k, (c.role t).Out k (c.own t))
    (ht : c.engaged t = true) : ∃ k, c.state.pc t = .free k .broadcast := by
  have hown : ∀ k, c.own t k = false := by
    intro k
    have hm := (hout k).1
    unfold Role.member at hm
    split at hm <;> simp_all
  -- a reader or a writer would be registered; who has not yet counted down is a member
  have hagrees := hc.agrees t
  simp only [Clients.engaged, show c.reg .read t = false from hown .read,
    show c.reg .write t = false from hown .write, Bool.false_or] at ht
  unfold Clients.role at hagrees hout
  split at ht
  · rename_i hpc
    rw [hpc] at hagrees
    exact absurd (hagrees.symm.trans (hown .write)) (by rintro ⟨⟩)
  · rename_i hpc
    rw [hpc] at hagrees
    exact absurd (hagrees.symm.trans (hown .read)) (by rintro ⟨⟩)
  · rename_i k p hpc
    obtain ⟨hm, -, hdec⟩ := hout k
    rw [hpc] at hm hdec ⊢
    cases p with
    | lock => simp [Pc.role, Role.member] at hm
    | dec => simp [Pc.role, Role.member] at hm
    | unlock => exact absurd rfl hdec
    | broadcast => exact ⟨k, rfl⟩
  · rename_i k hpc
    have hm := (hout k).1
    rw [hpc] at hm
    simp [Pc.role, Role.member] at hm
  · cases ht

/-- What `queue_destroy` has passed does not depend on whether it sleeps. -/
theorem DPc.past_role (k : Side) (p : DPc) :
    ∃ p', (Pc.destroy p).role = .destroy p' ∧ p'.past k = p.past k := by
  cases p with
  | asleep k' => exact ⟨.woken k', rfl, by cases k' <;> rfl⟩
  | _ => exact ⟨_, rfl, rfl⟩

end

/-- **When the queue is destroyed.**  At the step that frees the queue, the threads whose
    registration succeeded have nothing left to do exactly if none of them still has to send the
    broadcast at the end of `queue_consumer_free` or `queue_producer_free`; and once
    `queue_destroy` has seen the counter of a side at zero, nobody is registered there and no
    registration there is going to succeed. -/
theorem destroyed_untouched [DecidableEq ι] {size : ℕ} {h : List (Clients ι × ι × Act)}
    {c : Clients ι} (hrun : Run clientStep (Clients.start ι size) h c) :
    (∀ d, c.state.pc d = .destroy .free →
      ((∀ t, c.engaged t = false) ↔ ∀ t k, c.state.pc t ≠ .free k .broadcast)) ∧
    (∀ d p k, c.state.pc d = .destroy p → p.past k = true →
      ∀ t, c.reg k t = false ∧ c.state.pc t ≠ .new k .inc ∧
        c.state.pc t ≠ .new k (.unlock true)) := by
  have hc := roster_run hrun
  -- once `queue_destroy` has passed a side, nobody is registered there and nobody can be
  have hsealed : ∀ d p k, c.state.pc d = .destroy p → p.past k = true →
      ∀ t, (c.role t).Out k (c.own t) := by
    intro d p k hd hp
    obtain ⟨p', hrole, hpast⟩ := DPc.past_role k p
    exact hc.sealed d p' k (by rw [Clients.role, hd, hrole]) (hpast.trans hp)
  refine ⟨fun d hd => ⟨fun hnone t k hpc => ?_, fun hnone t => ?_⟩, fun d p k hd hp t => ?_⟩
  · have ht := hnone t
    simp [Clients.engaged, hpc] at ht
  · by_contra ht
    obtain ⟨k, hpc⟩ := broadcast_of_engaged hc (fun k => hsealed d .free k hd rfl t)
      (by simpa using ht)
    exact hnone t k hpc
  · obtain ⟨hm, hinc, -⟩ := hsealed d p k hd hp t
    refine ⟨?_, fun hpc => hinc (by rw [Clients.role, hpc]; rfl), fun hpc => ?_⟩
    · unfold Role.member at hm
      split at hm <;> simp_all [Clients.own]
    · rw [Clients.role, hpc] at hm
      simp [Pc.role, Role.member] at hm

/-- The producer `true` registers and leaves, up to its last step, the broadcast. -/
def producerLeaves : List (Bool × Act) :=
  [(true, .call (.new .write)), (true, .go), (true, .go), (true, .go), (true, .go),
   (true, .call (.free .write)), (true, .go), (true, .go), (true, .go)]

/-- The thread `false` calls `queue_destroy` and gets to the point where it frees the queue. -/
def destroyerPasses : List (Bool × Act) :=
  (false, .call .destroy) :: List.replicate 7 (false, .go)

/-- A producer that has sent its broadcast is done when the queue is freed. -/
theorem destroyed_untouched_one_producer : ∃ h c, Run clientStep (Clients.start Bool 64) h c ∧
    c.state.pc false = .destroy .free ∧ (∀ t, c.engaged t = false) := by
  obtain ⟨h, c, hr, -, hend⟩ := exists_run_of_play clientStep (Clients.start Bool 64)
    (fun _ _ => true) (fun c => c.state.pc false = .destroy .free && c.state.pc true = .idle)
    (producerLeaves ++ (true, .go) :: destroyerPasses) (by decide +kernel)
  simp only [Bool.and_eq_true, decide_eq_true_eq] at hend
  refine ⟨h, c, hr, hend.1, ((destroyed_untouched hr).1 false hend.1).mpr fun t k => ?_⟩
  cases t
  · rw [hend.1]
    rintro ⟨⟩
  · rw [hend.2]
    rintro ⟨⟩

/-- **The queue is freed under a leaving producer.**  `queue_producer_free` broadcasts after it
    has given up the mutex; `queue_destroy` takes the mutex in between, sees the counter at zero
    and frees the queue that the broadcast is about to use. -/
theorem destroyed_before_broadcast : ∃ h c, Run clientStep (Clients.start Bool 64) h c ∧
    c.state.pc false = .destroy .free ∧ c.state.pc true = .free .write .broadcast := by
  obtain ⟨h, c, hr, -, hend⟩ := exists_run_of_play clientStep (Clients.start Bool 64)
    (fun _ _ => true)
    (fun c => c.state.pc false = .destroy .free && c.state.pc true = .free .write .broadcast)
    (producerLeaves ++ destroyerPasses) (by decide +kernel)
  simp only [Bool.and_eq_true, decide_eq_true_eq] at hend
  exact ⟨h, c, hr, hend⟩

end Niuchacz.Queue
