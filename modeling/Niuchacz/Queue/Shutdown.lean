import Niuchacz.Lib.CondVar
import Niuchacz.Queue.Clients

namespace Niuchacz.Queue

open Lib.CondVar Lib.Transition

/-!
# Shutdown

`queue_destroy` clears `_isActive` and then waits, on the condition variables that producers and
consumers use as well, until both counters are zero.  Clearing the flag wakes nobody.

* `Pc.leavePhase` — `queue_destroy` and the threads that leave, as users of a condition variable
  in the sense of `Lib.CondVar`; `leaves_run`: `queue_destroy` itself is always woken.
* `stepGo_or_locked` — a thread that is neither idle nor asleep can go on, or waits for a mutex
  whose owner can.
* `Clients.canMove` — a thread can take a step that is not a spurious wake-up.
* `shutdown_progress` — who can move while `queue_destroy` sleeps.
-/

variable {ι : Type} {q : QueueT ι} {t : ι} {o : Outcome ι}

/-! ### `queue_destroy` is woken -/

/-- Where a thread stands with respect to the wait of `queue_destroy` on side `k`: the threads
    that leave the side owe a broadcast from the decrement on. -/
def Pc.leavePhase (k : Side) : Pc → Phase Unit
  | .destroy (.wait k') => if k' = k then .tested () else .other
  | .destroy (.asleep k') => if k' = k then .asleep () else .other
  | .free k' .unlock | .free k' .broadcast => if k' = k then .pending else .other
  | _ => .other

/-- What `queue_destroy` waits for. -/
def QueueT.Empty (q : QueueT ι) (k : Side) : Unit → Prop := fun _ => q.registered k ≤ 0

/-- A broadcast to the side wakes who waits there in `queue_destroy`, and nobody else. -/
theorem leavePhase_signalled (k : Side) (g : Option Side) (p : Pc) :
    (p.signalled g).leavePhase k =
      if g = some k then (p.leavePhase k).wake else p.leavePhase k := by
  cases g with
  | none => rfl
  | some k' =>
    simp only [Pc.signalled, Option.some.injEq]
    -- only the third kind of sleeper, `queue_destroy`, has a phase that a broadcast changes
    unfold Pc.wake
    split
    · split <;> simp [Pc.leavePhase, Phase.wake]
    · split <;> simp [Pc.leavePhase, Phase.wake]
    · rename_i k''
      rcases eq_or_ne k' k'' with rfl | hk
      · rcases eq_or_ne k' k with rfl | hk' <;> simp [Pc.leavePhase, Phase.wake, *]
      · rcases eq_or_ne k'' k with rfl | hk' <;> simp [Pc.leavePhase, Phase.wake, *]
    · rename_i p hw hr hd
      split
      · unfold Pc.leavePhase
        split
        · split <;> rfl
        · exact absurd rfl (hd _)
        · split <;> rfl
        · split <;> rfl
        · rfl
      · rfl

/-- A thread that is neither destroying nor leaving. -/
theorem Steps.quiet {q' : QueueT ι} {p p' : Pc} {k : Side} {signal : Bool}
    (hn : q.registered k ≤ q'.registered k) (hp : p.leavePhase k = .other)
    (hp' : p'.leavePhase k = .other) :
    Steps (q.Empty k) (q'.Empty k) (p.leavePhase k) (p'.leavePhase k) signal := by
  rw [hp, hp']
  exact Steps.to_other (fun _ hc => le_trans hn hc) (by rintro ⟨⟩)

/-- Taking a mutex is neither of the two. -/
theorem Steps.locked {k k' : Side} {p p' : Pc} {signal : Bool} (h : lockThen q k' t p' = some o)
    (hp : p.leavePhase k = .other) (hp' : p'.leavePhase k = .other) :
    Steps (q.Empty k) (o.q.Empty k) (p.leavePhase k) (o.pc.leavePhase k) signal := by
  rw [(lockThen_some h).2.1]
  exact Steps.quiet (by rw [(sameClients_lockThen h).1]) hp hp'

/-- Registering only raises a counter. -/
theorem stepNew_leaves {k' : Side} {p : NPc} (k : Side) (h : stepNew q t k' p = some o) :
    Steps (q.Empty k) (o.q.Empty k) ((Pc.new k' p).leavePhase k) (o.pc.leavePhase k)
      (o.signal = some k) := by
  cases p with
  | lock => exact Steps.locked h rfl rfl
  | test =>
    simp only [stepNew, goto] at h
    split at h <;> cases h <;> exact Steps.quiet le_rfl rfl rfl
  -- ==> a registration only moves the counter away from 0
  | inc =>
    cases h
    refine Steps.quiet ?_ rfl rfl
    rw [registered_addRegistered, Function.update_apply]
    split
    · rename_i hk
      rw [hk]
      omega
    · exact le_rfl
  | unlock success =>
    cases h
    exact Steps.quiet (by rw [registered_setMutex]) rfl rfl

/-- From the decrement to the broadcast, who leaves a side owes its sleepers a wake-up. -/
theorem stepFree_leaves {k' : Side} {p : FPc} (k : Side) (h : stepFree q t k' p = some o) :
    Steps (q.Empty k) (o.q.Empty k) ((Pc.free k' p).leavePhase k) (o.pc.leavePhase k)
      (o.signal = some k) := by
  rcases eq_or_ne k' k with rfl | hk
  · cases p with
    | lock => exact Steps.locked h rfl rfl
    | dec =>
      cases h
      rw [show (Pc.free k' .unlock).leavePhase k' = .pending from if_pos rfl]
      exact Steps.to_pending
    | unlock =>
      cases h
      rw [show (Pc.free k' .broadcast).leavePhase k' = .pending from if_pos rfl]
      exact Steps.to_pending
    | broadcast =>
      cases h
      exact Steps.to_other (fun _ => id) (fun _ => decide_eq_true rfl)
  · -- the counter and the condition variable of the other side are not touched
    have hother : ∀ p, (Pc.free k' p).leavePhase k = .other := by
      intro p
      cases p <;> simp [Pc.leavePhase, hk]
    cases p with
    | lock => exact Steps.locked h (hother _) (hother _)
    | dec =>
      cases h
      refine Steps.quiet ?_ (hother _) (hother _)
      rw [registered_addRegistered, Function.update_of_ne hk.symm]
    | unlock =>
      cases h
      exact Steps.quiet (by rw [registered_setMutex]) (hother _) (hother _)
    | broadcast =>
      cases h
      exact Steps.quiet le_rfl (hother _) rfl

/-- `queue_destroy` goes to sleep only on a counter that it has just seen above zero. -/
theorem stepDestroy_leaves {p : DPc} (k : Side) (h : stepDestroy q t p = some o) :
    Steps (q.Empty k) (o.q.Empty k) ((Pc.destroy p).leavePhase k) (o.pc.leavePhase k)
      (o.signal = some k) := by
  cases p with
  | flag =>
    cases h
    exact Steps.quiet le_rfl rfl rfl
  | lock k' => exact Steps.locked h rfl rfl
  -- ==> the number is not 0: whoever goes to sleep has a reason to
  | test k' =>
    simp only [stepDestroy, goto] at h
    split at h
    · rename_i hn
      cases h
      rcases eq_or_ne k' k with rfl | hk
      · exact ⟨fun _ _ hen => absurd hen (not_le.mpr hn),
          fun _ hp => by simp [Pc.leavePhase] at hp, Or.inr fun _ => id, by rintro ⟨⟩⟩
      · exact Steps.quiet le_rfl rfl (if_neg hk)
    · cases h
      exact Steps.quiet le_rfl rfl rfl
  -- ==> the mutex is given up, and the number stays
  | wait k' =>
    cases h
    rcases eq_or_ne k' k with rfl | hk
    · refine ⟨fun _ hp => by simp [Pc.leavePhase] at hp, fun _ _ => Or.inl (if_pos rfl),
        Or.inr fun _ hen => ?_, fun hp => by simp [Pc.leavePhase] at hp⟩
      unfold QueueT.Empty at hen ⊢
      rwa [registered_setMutex] at hen
    · exact Steps.quiet (by rw [registered_setMutex]) (if_neg hk) (if_neg hk)
  | asleep k' => cases h
  | woken k' => exact Steps.locked h rfl rfl
  | unlock k' =>
    cases h
    refine Steps.quiet (by rw [registered_setMutex]) rfl ?_
    cases k' <;> rfl
  | free =>
    cases h
    exact Steps.quiet le_rfl rfl rfl

/-- Every step is one that a user of the condition variable may take. -/
theorem outcome_leaves {p : Pc} {a : Act} (k : Side) (h : outcome q t p a = some o) :
    Steps (q.Empty k) (o.q.Empty k) (p.leavePhase k) (o.pc.leavePhase k) (o.signal = some k) := by
  rcases (outcome_some h).2 with ⟨call, -, rfl, rfl⟩ | ⟨-, hgo⟩ | ⟨timedOut, -, hwake⟩
  · exact Steps.quiet le_rfl rfl (by cases call <;> rfl)
  · cases p with
    | idle => cases hgo
    | write e timed p =>
      refine Steps.quiet (by rw [(stepWrite_sameClients hgo).1]) rfl ?_
      rcases stepWrite_pc hgo with hpc | ⟨p', hpc⟩ <;> rw [hpc] <;> rfl
    | read timed p =>
      refine Steps.quiet (by rw [(stepRead_sameClients hgo).1]) rfl ?_
      rcases stepRead_pc hgo with hpc | ⟨p', hpc⟩ <;> rw [hpc] <;> rfl
    | new k' p => exact stepNew_leaves k hgo
    | free k' p => exact stepFree_leaves k hgo
    | destroy p => exact stepDestroy_leaves k hgo
  · rcases stepWake_some hwake with ⟨e, timed, rfl, rfl⟩ | ⟨timed, rfl, rfl⟩ | ⟨k', rfl, rfl⟩
    · exact Steps.quiet le_rfl rfl rfl
    · exact Steps.quiet le_rfl rfl rfl
    · -- awake, the destroyer tests the counter again
      refine Steps.to_other (fun _ => id) fun hp => ?_
      simp only [Pc.leavePhase] at hp
      split at hp <;> cases hp

/-- Both waits of `queue_destroy` are safe. -/
def Clients.Leaves (c : Clients ι) : Prop :=
  ∀ k, Safe (fun u => (c.state.pc u).leavePhase k) (c.state.q.Empty k)

/-- Only `queue_destroy` tests the number of registered threads. -/
theorem leavePhase_tested {k : Side} {p : Pc} {x : Unit} (h : p.leavePhase k = .tested x) :
    p = .destroy (.wait k) := by
  unfold Pc.leavePhase at h
  split at h
  · split at h
    · rename_i hk
      rw [hk]
    · cases h
  · split at h <;> cases h
  · split at h <;> cases h
  · split at h <;> cases h
  · cases h

/-- Only a thread that leaves the side owes a broadcast. -/
theorem leavePhase_pending {k : Side} {p : Pc} (h : p.leavePhase k = .pending) :
    ∃ f, p = .free k f := by
  unfold Pc.leavePhase at h
  split at h
  · split at h <;> cases h
  · split at h <;> cases h
  · split at h
    · rename_i hk
      exact ⟨_, by rw [hk]⟩
    · cases h
  · split at h
    · rename_i hk
      exact ⟨_, by rw [hk]⟩
    · cases h
  · cases h

section
variable [DecidableEq ι] {c c' : Clients ι} {a : Act}

/-- The phases of all threads after a step of one. -/
theorem leavePhase_apply {s : State ι} (k : Side) : (fun u => ((s.apply t o).pc u).leavePhase k) =
    after (fun u => (s.pc u).leavePhase k) t (o.pc.leavePhase k) (o.signal = some k) := by
  funext u
  by_cases hu : u = t
  · subst hu
    simp [State.apply, after]
  · simp [State.apply, after, Function.update_of_ne hu, leavePhase_signalled]

/-- **Step.**  No broadcast of a leaving thread is missed: `queue_destroy` tests the counter and
    falls asleep with the mutex in its hands. -/
theorem leaves_step (hc : Roster c) (hl : c.Leaves) (h : clientStep c (t, a) = some c') :
    c'.Leaves := by
  obtain ⟨-, o, ho, rfl⟩ := clientStep_some h
  intro k
  show Safe (fun u => ((c.state.apply t o).pc u).leavePhase k) (o.q.Empty k)
  rw [leavePhase_apply]
  refine (hl k).step (outcome_leaves k ho) fun _ _ hmissed => ?_
  obtain ⟨⟨u, x, hu, hen⟩, -⟩ := hmissed
  have hpos := hc.waits u k (by rw [Clients.role, leavePhase_tested hu]; rfl)
  exact absurd hen (not_le.mpr hpos)

/-- **Runs.**  In every run of clients both waits of `queue_destroy` are safe. -/
theorem leaves_run {size : ℕ} {h : List (Clients ι × ι × Act)}
    (hrun : Run clientStep (Clients.start ι size) h c) : Roster c ∧ c.Leaves := by
  refine hrun.invariant (fun _ _ => True) (fun c => Roster c ∧ c.Leaves)
    ⟨roster_start size, fun k t x hx => ?_⟩
    (fun _ _ _ hc _ hs => ⟨roster_step hc.1 (moves_of_step hs), leaves_step hc.1 hc.2 hs⟩)
    (fun _ _ => trivial)
  rcases hx with hx | hx <;> cases hx

end

/-! ### Who can go on -/

/-- The thread waits for a broadcast. -/
def Pc.asleep : Pc → Bool
  | .write _ _ .asleep | .read _ .asleep | .destroy (.asleep _) => true
  | _ => false

/-- Whoever wants a mutex gets it, or somebody holds it. -/
theorem lockThen_or_locked (q : QueueT ι) (k : Side) (t : ι) (p : Pc) :
    (lockThen q k t p).isSome = true ∨ ∃ u, q.mutex k = some u := by
  unfold lockThen
  cases hm : q.mutex k with
  | none => exact Or.inl rfl
  | some u => exact Or.inr ⟨u, rfl⟩

/-- The thread's buffer can be read, if it has one, so that the checksum does not end it. -/
def Pc.alive : Pc → Bool
  | .write _ _ .fault => false
  | .write e _ _ => e.readable
  | _ => true

/-- A thread inside a function that does not sleep can take its next step, unless that is to
    take a mutex that another thread holds. -/
theorem stepGo_or_locked (q : QueueT ι) (t : ι) {p : Pc} (hidle : p ≠ .idle)
    (hawake : p.asleep = false) (halive : p.alive = true) :
    (stepGo q t p).isSome = true ∨ (∀ k, p.holds k = false) ∧ ∃ k u, q.mutex k = some u := by
  -- a thread at a lock is outside every section, so the owner is somebody else
  have hlock : ∀ {k : Side} {p' : Pc}, (∀ k, p.holds k = false) →
      (lockThen q k t p').isSome = true ∨ (∀ k, p.holds k = false) ∧ ∃ k u, q.mutex k = some u := by
    intro k p' hp
    exact (lockThen_or_locked q k t p').imp_right fun hu => ⟨hp, k, hu⟩
  cases p with
  | idle => exact absurd rfl hidle
  | write e timed p =>
    cases p
    case lock => exact hlock fun k => by simp [Pc.holds, WPc.inSection]
    case woken b => exact hlock fun k => by simp [Pc.holds, WPc.inSection]
    case asleep => cases hawake
    case fault => cases halive
    all_goals
      refine Or.inl ?_
      simp only [stepGo, stepWrite, goto]
      repeat' split
      all_goals rfl
  | read timed p =>
    cases p
    case lock => exact hlock fun k => by simp [Pc.holds, RPc.inSection]
    case woken b => exact hlock fun k => by simp [Pc.holds, RPc.inSection]
    case asleep => cases hawake
    all_goals
      refine Or.inl ?_
      simp only [stepGo, stepRead, goto]
      repeat' split
      all_goals rfl
  | new k' p =>
    cases p
    case lock => exact hlock fun k => by simp [Pc.holds, NPc.inSection]
    all_goals
      refine Or.inl ?_
      simp only [stepGo, stepNew, goto]
      repeat' split
      all_goals rfl
  | free k' p =>
    cases p
    case lock => exact hlock fun k => by simp [Pc.holds, FPc.inSection]
    all_goals exact Or.inl rfl
  | destroy p =>
    cases p
    case lock k' => exact hlock fun k => by simp [Pc.holds]
    case woken k' => exact hlock fun k => by simp [Pc.holds]
    case asleep => cases hawake
    all_goals
      refine Or.inl ?_
      simp only [stepGo, stepDestroy, goto]
      repeat' split
      all_goals rfl

/-- Only a thread in the middle of a call, and awake, goes on. -/
theorem awake_of_go {p : Pc} (h : stepGo q t p = some o) : p ≠ .idle ∧ p.asleep = false := by
  have hidle : p ≠ .idle := by
    rintro rfl
    cases h
  refine ⟨hidle, ?_⟩
  cases hs : p.asleep with
  | false => rfl
  | true =>
    unfold Pc.asleep at hs
    split at hs
    · cases h
    · cases h
    · cases h
    · cases hs

/-- Only a thread outside of all calls makes one. -/
theorem idle_of_call {p : Pc} {call : Call} (h : outcome q t p (.call call) = some o) :
    p = .idle := by
  rcases (outcome_some h).2 with ⟨_, -, hp, -⟩ | ⟨ha, -⟩ | ⟨_, ha, -⟩
  · exact hp
  · cases ha
  · cases ha

/-- The thread is registered or inside one of the queue's functions. -/
def Clients.participates (c : Clients ι) (t : ι) : Bool :=
  c.reg .read t || c.reg .write t || c.state.pc t ≠ .idle

/-- The thread sleeps in a `queue_write` or `queue_read` without a timeout. -/
def Pc.stranded : Pc → Bool
  | .write _ false .asleep | .read false .asleep => true
  | _ => false

theorem asleep_of_stranded {p : Pc} (h : p.stranded = true) : p.asleep = true := by
  unfold Pc.stranded at h
  split at h
  · rfl
  · rfl
  · cases h

/-- Every wait of the thread has a timeout. -/
def Pc.timed : Pc → Bool
  | .write _ timed _ | .read timed _ => timed
  | _ => true

theorem timed_of_stranded {p : Pc} (h : p.stranded = true) : p.timed = false := by
  unfold Pc.stranded at h
  split at h
  · rfl
  · rfl
  · cases h

/-- Any other thread that sleeps has a timeout, so that it wakes up. -/
theorem timed_of_asleep {p : Pc} (hs : p.asleep = true) (hstr : p.stranded = false) :
    p.timed = true := by
  unfold Pc.asleep at hs
  split at hs
  · rename_i timed
    cases timed
    · cases hstr
    · rfl
  · rename_i timed
    cases timed
    · cases hstr
    · rfl
  · rfl
  · cases hs

/-- The step is not a call without a timeout. -/
def Act.timed : Act → Bool
  | .call (.write _ timed) | .call (.read timed) => timed
  | _ => true

/-- While `queue_destroy` sleeps, somebody else is still to leave the side it waits for. -/
theorem exists_participant {c : Clients ι} (hc : Roster c) (hl : c.Leaves) {d : ι} {k : Side}
    (hd : c.state.pc d = .destroy (.asleep k)) : ∃ t, t ≠ d ∧ c.participates t = true := by
  by_cases hn : c.state.q.registered k ≤ 0
  · -- the counter is zero: the broadcast is still to come, and its sender is inside
    obtain ⟨t, ht⟩ := hl k d () (Or.inr (by simp [hd, Pc.leavePhase])) hn
    obtain ⟨f, hf⟩ := leavePhase_pending ht
    refine ⟨t, ?_, by simp [Clients.participates, hf]⟩
    rintro rfl
    rw [hd] at hf
    cases hf
  · -- the counter is not zero: somebody is counted in it
    obtain ⟨t, ht⟩ := (hc.counted k).exists (not_le.mp hn)
    have hrole : c.role d = .destroy (.woken k) := by rw [Clients.role, hd]; rfl
    have hagrees := hc.agrees d
    rw [hrole] at hagrees
    refine ⟨t, ?_, ?_⟩
    · rintro rfl
      rw [hrole] at ht
      exact absurd (ht.symm.trans (hagrees k)) (by rintro ⟨⟩)
    · by_cases hidle : c.state.pc t = .idle
      · have hreg : c.reg k t = true := by
          rw [Clients.role, hidle] at ht
          exact ht
        cases k <;> simp [Clients.participates, hreg]
      · simp [Clients.participates, hidle]

/-- Calls with timeouts make waits with timeouts. -/
theorem timed_outcome {p : Pc} {a : Act} (h : outcome q t p a = some o) (ha : a.timed = true)
    (hp : p.timed = true) : o.pc.timed = true := by
  rcases (outcome_some h).2 with ⟨call, rfl, -, rfl⟩ | ⟨-, hgo⟩ | ⟨timedOut, -, hwake⟩
  -- a call is made with a timeout by assumption
  · cases call <;> exact ha
  · have helse : o.pc.elsewhere = true → o.pc.timed = true := by
      intro hpc
      cases hp' : o.pc <;> first | rfl | (rw [hp'] at hpc; cases hpc)
    cases p with
    | idle => cases hgo
    | write e timed p =>
      rcases stepWrite_pc hgo with hpc | ⟨p', hpc⟩ <;> rw [hpc]
      · rfl
      · exact hp
    | read timed p =>
      rcases stepRead_pc hgo with hpc | ⟨p', hpc⟩ <;> rw [hpc]
      · rfl
      · exact hp
    | new k p => exact helse (stepNew_quiet hgo).2.2.2
    | free k p => exact helse (stepFree_quiet hgo).2.2.2
    | destroy p => exact helse (stepDestroy_quiet hgo).2.2.2
  · rcases stepWake_some hwake with ⟨e, timed, rfl, rfl⟩ | ⟨timed, rfl, rfl⟩ | ⟨k, rfl, rfl⟩
    · exact hp
    · exact hp
    · rfl

/-- A broadcast changes neither the timeout nor the buffer of a call. -/
theorem timed_signalled (g : Option Side) (p : Pc) :
    (p.signalled g).timed = p.timed ∧ (p.signalled g).alive = p.alive := by
  cases g with
  | none => exact ⟨rfl, rfl⟩
  | some k =>
    simp only [Pc.signalled]
    unfold Pc.wake
    split
    · split <;> exact ⟨rfl, rfl⟩
    · split <;> exact ⟨rfl, rfl⟩
    · exact ⟨rfl, rfl⟩
    · exact ⟨rfl, rfl⟩

/-- A producer with a buffer that can be read gets past its checksum. -/
theorem stepWrite_alive {e : Entry} {timed : Bool} {p : WPc} (he : e.readable = true)
    (h : stepWrite q t e timed p = some o) : o.pc.alive = true := by
  cases p
  case lock => rw [(lockThen_some h).2.1]; exact he
  case woken timedOut => rw [(lockThen_some h).2.1]; exact he
  case crc =>
    simp only [stepWrite, goto, if_pos he] at h
    cases h
    exact he
  all_goals
    simp only [stepWrite, goto] at h
    repeat' split at h
    all_goals
      cases h
      try first | rfl | exact he

section
variable [DecidableEq ι] {c c' : Clients ι} {a : Act}

/-- The thread can take a step that is not a spurious wake-up: go on in the function it is in,
    time out of its wait, or leave the side it is registered on. -/
def Clients.canMove (c : Clients ι) (t : ι) : Bool :=
  (clientStep c (t, .go)).isSome || (clientStep c (t, .wake true)).isSome ||
    (clientStep c (t, .call (.free .read))).isSome ||
    (clientStep c (t, .call (.free .write))).isSome

/-- Unfolding lemma: a client can take a step if the step is allowed to it and enabled. -/
theorem isSome_clientStep : (clientStep c (t, a)).isSome = true ↔
    c.allowed t a = true ∧ (outcome c.state.q t (c.state.pc t) a).isSome = true := by
  unfold clientStep step
  split
  · rename_i hallowed
    simp [show c.allowed t a = true from hallowed]
  · rename_i hallowed
    simp [show ¬ c.allowed t a = true from hallowed]

/-- What the program lets a thread do, a client may do. -/
theorem isSome_go (hf : c.state.q.freed = false)
    (h : (stepGo c.state.q t (c.state.pc t)).isSome = true) :
    (clientStep c (t, .go)).isSome = true := by
  refine isSome_clientStep.mpr ⟨rfl, ?_⟩
  simpa [outcome, hf] using h

/-- A sleeping `queue_write` or `queue_read` with a timeout can time out. -/
theorem isSome_timeout (hf : c.state.q.freed = false) (hs : (c.state.pc t).asleep = true)
    (ht : (c.state.pc t).timed = true) (hd : ∀ p, c.state.pc t ≠ .destroy p) :
    (clientStep c (t, .wake true)).isSome = true := by
  refine isSome_clientStep.mpr ⟨rfl, ?_⟩
  unfold Pc.asleep at hs
  split at hs
  · rename_i hpc
    simp only [hpc, Pc.timed] at ht
    simp [outcome, hf, hpc, stepWake, goto, ht]
  · rename_i hpc
    simp only [hpc, Pc.timed] at ht
    simp [outcome, hf, hpc, stepWake, goto, ht]
  · rename_i hpc
    exact absurd hpc (hd _)
  · cases hs

/-- Somebody can move if a thread inside a function does not sleep. -/
theorem exists_canMove (hx : Exclusive c.state) (hf : c.state.q.freed = false)
    (halive : ∀ t, (c.state.pc t).alive = true) (hidle : c.state.pc t ≠ .idle)
    (hawake : (c.state.pc t).asleep = false) : ∃ u, c.canMove u = true := by
  rcases stepGo_or_locked c.state.q t hidle hawake (halive t) with hgo | ⟨-, k, u, hu⟩
  · exact ⟨t, by simp [Clients.canMove, isSome_go hf hgo]⟩
  · -- the owner of the mutex is in its critical section, where no step waits
    have hholds := (hx k u).mp hu
    have hidle' : c.state.pc u ≠ .idle := by
      intro hpc
      rw [hpc] at hholds
      cases hholds
    have hawake' : (c.state.pc u).asleep = false := by
      cases hs : (c.state.pc u).asleep with
      | false => rfl
      | true =>
        unfold Pc.asleep at hs
        split at hs
        all_goals simp_all [Pc.holds, WPc.inSection, RPc.inSection]
    rcases stepGo_or_locked c.state.q u hidle' hawake' (halive u) with hgo | ⟨hnone, -⟩
    · exact ⟨u, by simp [Clients.canMove, isSome_go hf hgo]⟩
    · rw [hnone k] at hholds
      cases hholds

/-- What every step of a client keeps of its own program counter, and every broadcast of the
    others', holds of all threads. -/
theorem all_run {size : ℕ} {h : List (Clients ι × ι × Act)} {P : Pc → Prop} {A : Act → Prop}
    (hrun : Run clientStep (Clients.start ι size) h c) (hA : ∀ p ∈ h, A p.2.2) (hidle : P .idle)
    (hsignal : ∀ g p, P p → P (p.signalled g))
    (hstep : ∀ (c : Clients ι) t a o, c.allowed t a = true → A a →
      outcome c.state.q t (c.state.pc t) a = some o → P (c.state.pc t) → P o.pc) :
    ∀ t, P (c.state.pc t) := by
  refine hrun.invariant (fun _ l => A l.2) (fun c => ∀ t, P (c.state.pc t)) (fun _ => hidle) ?_ hA
  rintro c ⟨t, a⟩ c' hc ha hs u
  obtain ⟨hallowed, o, ho, rfl⟩ := clientStep_some hs
  by_cases hu : u = t
  · subst hu
    simpa [State.apply] using hstep c u a o hallowed ha ho (hc u)
  · simpa [State.apply, Function.update_of_ne hu] using hsignal o.signal _ (hc u)

/-- If all calls have timeouts, so has every wait. -/
theorem timed_run {size : ℕ} {h : List (Clients ι × ι × Act)}
    (hrun : Run clientStep (Clients.start ι size) h c) (htimed : ∀ p ∈ h, p.2.2.timed = true) :
    ∀ t, (c.state.pc t).timed = true :=
  all_run (P := fun p => p.timed = true) (A := fun a => a.timed = true) hrun htimed rfl
    (fun g p hp => (timed_signalled g p).1.trans hp)
    (fun _ _ _ _ _ ha ho hp => timed_outcome ho ha hp)

/-- No client ends in its checksum: their buffers exist. -/
theorem alive_run {size : ℕ} {h : List (Clients ι × ι × Act)}
    (hrun : Run clientStep (Clients.start ι size) h c) : ∀ t, (c.state.pc t).alive = true := by
  refine all_run (P := fun p => p.alive = true) (A := fun _ => True) hrun (fun _ _ => trivial) rfl
    (fun g p hp => (timed_signalled g p).2.trans hp) ?_
  intro c t a o hallowed _ ho hp
  rcases (outcome_some ho).2 with ⟨call, rfl, -, rfl⟩ | ⟨-, hgo⟩ | ⟨timedOut, -, hwake⟩
  · cases call with
    -- ==> clients pass buffers that can be read
    | write e timed =>
      simp only [Clients.allowed, Bool.and_eq_true] at hallowed
      exact hallowed.2
    | _ => rfl
  · have helse : o.pc.elsewhere = true → o.pc.alive = true := by
      intro hpc
      cases hp' : o.pc <;> first | rfl | (rw [hp'] at hpc; cases hpc)
    cases hpc : c.state.pc t with
    | idle => rw [hpc] at hgo; cases hgo
    | write e timed p =>
      rw [hpc] at hgo hp
      refine stepWrite_alive ?_ hgo
      cases p
      case fault => cases hp
      all_goals exact hp
    | read timed p =>
      rw [hpc] at hgo
      rcases stepRead_pc hgo with hpc' | ⟨p', hpc'⟩ <;> rw [hpc'] <;> rfl
    | new k p => rw [hpc] at hgo; exact helse (stepNew_quiet hgo).2.2.2
    | free k p => rw [hpc] at hgo; exact helse (stepFree_quiet hgo).2.2.2
    | destroy p => rw [hpc] at hgo; exact helse (stepDestroy_quiet hgo).2.2.2
  · rcases stepWake_some hwake with ⟨e, timed, hpc, rfl⟩ | ⟨timed, -, rfl⟩ | ⟨k, -, rfl⟩
    · rw [hpc] at hp
      exact hp
    · rfl
    · rfl

/-- Who moves is registered or inside a function, and does not sleep without a timeout. -/
theorem participates_of_canMove (h : c.canMove t = true) :
    c.participates t = true ∧ (c.state.pc t).stranded = false ∧
      ∀ k, c.state.pc t ≠ .destroy (.asleep k) := by
  simp only [Clients.canMove, Bool.or_eq_true, isSome_clientStep] at h
  rcases h with ((⟨-, h⟩ | ⟨-, h⟩) | ⟨hreg, h⟩) | ⟨hreg, h⟩
  all_goals
    obtain ⟨o, ho⟩ := Option.isSome_iff_exists.mp h
    obtain ⟨-, hkind⟩ := outcome_some ho
  · obtain ⟨hidle, hawake⟩ := awake_of_go (by simpa using hkind)
    refine ⟨by simp [Clients.participates, hidle], ?_, ?_⟩
    · cases hs : (c.state.pc t).stranded with
      | false => rfl
      | true => exact absurd (hawake.symm.trans (asleep_of_stranded hs)) (by rintro ⟨⟩)
    · intro k hpc
      rw [hpc] at hawake
      cases hawake
  · -- only a wait with a timeout returns by itself
    have hwake : stepWake c.state.q true (c.state.pc t) = some o := by simpa using hkind
    unfold stepWake at hwake
    split at hwake
    · rename_i timed hpc
      split at hwake <;> cases hwake
      rename_i htimed
      simp_all [Clients.participates, Pc.stranded]
    · rename_i timed hpc
      split at hwake <;> cases hwake
      rename_i htimed
      simp_all [Clients.participates, Pc.stranded]
    · cases hwake
    · cases hwake
  · have hidle := idle_of_call ho
    have hreg' : c.reg .read t = true := hreg
    simp [Clients.participates, hidle, hreg', Pc.stranded]
  · have hidle := idle_of_call ho
    have hreg' : c.reg .write t = true := hreg
    simp [Clients.participates, hidle, hreg', Pc.stranded]

/-- Somebody can move if a participant does not sleep without a timeout. -/
theorem canMove_of_participates (hx : Exclusive c.state) (hf : c.state.q.freed = false)
    (halive : ∀ t, (c.state.pc t).alive = true) (hd : ∀ p, c.state.pc t ≠ .destroy p)
    (hpart : c.participates t = true) (hstr : (c.state.pc t).stranded = false) :
    ∃ u, c.canMove u = true := by
  by_cases hidle : c.state.pc t = .idle
  · -- an idle thread that is registered can leave
    have hfree : ∀ k, c.reg k t = true → (clientStep c (t, .call (.free k))).isSome = true := by
      intro k hk
      refine isSome_clientStep.mpr ⟨hk, ?_⟩
      simp [outcome, hf, hidle, goto]
    refine ⟨t, ?_⟩
    rcases (by simpa [Clients.participates, hidle] using hpart :
      c.reg .read t = true ∨ c.reg .write t = true) with hk | hk
    · simp [Clients.canMove, hfree .read hk]
    · simp [Clients.canMove, hfree .write hk]
  · cases hs : (c.state.pc t).asleep with
    | false => exact exists_canMove hx hf halive hidle hs
    | true =>
      have htimeout := isSome_timeout hf hs (timed_of_asleep hs hstr) hd
      exact ⟨t, by simp [Clients.canMove, htimeout]⟩

/-- The step of the program, as a step of a client. -/
theorem clientStep_go {p : Pc} (hf : c.state.q.freed = false) (hp : c.state.pc t = p)
    (ho : stepGo c.state.q t p = some o) :
    ∃ c', clientStep c (t, .go) = some c' ∧ c'.state.pc t = o.pc := by
  have hout : outcome c.state.q t (c.state.pc t) .go = some o := by
    rw [hp]
    simpa [outcome, hf] using ho
  have hstep : step c.state (t, .go) = some (c.state.apply t o) := by
    simp [step, hout]
  refine ⟨⟨c.state.apply t o, c.regAfter t .go, c.destroyer⟩, ?_, by simp [State.apply]⟩
  simp [clientStep, Clients.allowed, hstep, Clients.destroyerAfter]

end

/-- **Who can move while `queue_destroy` sleeps.**  The flag is cleared and somebody else is still
    to leave.  Somebody can take a step exactly if some other thread that is registered or inside
    a function is not asleep in a `queue_read` or `queue_write` without a timeout.  Whoever
    returns from its wait goes on to return `QUEUE_RET_DESTROYING`.  If all calls have timeouts,
    then somebody can always move, and every sleeping reader and writer can by itself. -/
theorem shutdown_progress [DecidableEq ι] {size : ℕ} {h : List (Clients ι × ι × Act)}
    {c : Clients ι} (hrun : Run clientStep (Clients.start ι size) h c) {d : ι} {k : Side}
    (hd : c.state.pc d = .destroy (.asleep k)) :
    c.state.q.isActive = false ∧
    (∃ t, t ≠ d ∧ c.participates t = true) ∧
    ((∃ t, c.canMove t = true) ↔
      ∃ t, t ≠ d ∧ c.participates t = true ∧ (c.state.pc t).stranded = false) ∧
    (∀ t e timed b, c.state.pc t = .write e timed (.awake b) →
      ∃ c', clientStep c (t, .go) = some c' ∧
        c'.state.pc t = .write e timed (.bail QUEUE_RET_DESTROYING)) ∧
    (∀ t timed b, c.state.pc t = .read timed (.awake b) →
      ∃ c', clientStep c (t, .go) = some c' ∧
        c'.state.pc t = .read timed (.bail QUEUE_RET_DESTROYING)) ∧
    ((∀ p ∈ h, p.2.2.timed = true) →
      (∃ t, c.canMove t = true) ∧
      ∀ t, t ≠ d → (c.state.pc t).asleep = true →
        (clientStep c (t, .wake true)).isSome = true) := by
  obtain ⟨hc, hl⟩ := leaves_run hrun
  have hrole : c.role d = .destroy (.woken k) := by rw [Clients.role, hd]; rfl
  have hactive := hc.flagged d _ hrole (by rintro ⟨⟩)
  have hf : c.state.q.freed = false := by
    cases hfreed : c.state.q.freed with
    | false => rfl
    | true => exact absurd hrole (hc.freed hfreed d _)
  -- `queue_destroy` is called once, so the others are not in it
  have hother : ∀ t, t ≠ d → ∀ p, c.state.pc t ≠ .destroy p := by
    intro t ht p hp
    obtain ⟨p', hp', -⟩ := DPc.past_role .read p
    exact ht (hc.unique (by rw [Clients.role, hp, hp']) hrole)
  have hmoves : (∃ t, c.canMove t = true) ↔
      ∃ t, t ≠ d ∧ c.participates t = true ∧ (c.state.pc t).stranded = false := by
    constructor
    · rintro ⟨t, ht⟩
      obtain ⟨hpart, hstr, hasleep⟩ := participates_of_canMove ht
      exact ⟨t, fun htd => hasleep k (htd ▸ hd), hpart, hstr⟩
    · rintro ⟨t, htd, hpart, hstr⟩
      exact canMove_of_participates hc.exclusive hf (alive_run hrun) (hother t htd) hpart hstr
  have hpart := exists_participant hc hl hd
  refine ⟨hactive, hpart, hmoves, fun t e timed b hpc => ?_, fun t timed b hpc => ?_,
    fun htimed => ?_⟩
  · exact clientStep_go hf hpc (by simp [stepGo, stepWrite, hactive, goto]; rfl)
  · exact clientStep_go hf hpc (by simp [stepGo, stepRead, hactive, goto]; rfl)
  · have htimed' := timed_run hrun htimed
    refine ⟨hmoves.mpr ?_, fun t ht hs => isSome_timeout hf hs (htimed' t) (hother t ht)⟩
    obtain ⟨t, ht, hp⟩ := hpart
    refine ⟨t, ht, hp, ?_⟩
    cases hs : (c.state.pc t).stranded with
    | false => rfl
    | true => exact absurd ((timed_of_stranded hs).symm.trans (htimed' t)) (by rintro ⟨⟩)

/-- The consumer `true` registers, finds the queue empty and falls asleep in `queue_read`; then
    the thread `false` destroys the queue up to its wait for the consumers. -/
def sleeperThenDestroy (timed : Bool) : List (Bool × Act) :=
  [(true, .call (.new .read)), (true, .go), (true, .go), (true, .go), (true, .go),
   (true, .call (.read timed)), (true, .go), (true, .go), (true, .go),
   (false, .call .destroy)] ++ List.replicate 7 (false, .go)

/-- With a timeout the sleeping consumer gets to see that the queue is being destroyed. -/
theorem shutdown_progress_timed : ∃ h c, Run clientStep (Clients.start Bool 64) h c ∧
    c.state.pc false = .destroy (.asleep .read) ∧ c.state.pc true = .read true .asleep ∧
      (clientStep c (true, .wake true)).isSome = true := by
  obtain ⟨h, c, hr, htimed, hend⟩ := exists_run_of_play clientStep (Clients.start Bool 64)
    (fun _ l => l.2.timed)
    (fun c => c.state.pc false = .destroy (.asleep .read) && c.state.pc true = .read true .asleep)
    (sleeperThenDestroy true) (by decide +kernel)
  simp only [Bool.and_eq_true, decide_eq_true_eq] at hend
  refine ⟨h, c, hr, hend.1, hend.2, ?_⟩
  exact ((shutdown_progress hr hend.1).2.2.2.2.2 htimed).2 true (by rintro ⟨⟩) (by rw [hend.2]; rfl)

/-- **Shutdown strands a consumer.**  The consumer sleeps in `queue_read` without a timeout,
    `queue_destroy` sleeps until the consumer leaves, and nobody can take a step: clearing
    `_isActive` has woken nobody. -/
theorem shutdown_stuck : ∃ h c, Run clientStep (Clients.start Bool 64) h c ∧
    c.state.q.isActive = false ∧ c.state.pc false = .destroy (.asleep .read) ∧
      c.state.pc true = .read false .asleep ∧ ∀ t, c.canMove t = false := by
  obtain ⟨h, c, hr, -, hend⟩ := exists_run_of_play clientStep (Clients.start Bool 64)
    (fun _ _ => true)
    (fun c => !c.state.q.isActive && c.state.pc false = .destroy (.asleep .read) &&
      c.state.pc true = .read false .asleep && !c.canMove false && !c.canMove true)
    (sleeperThenDestroy false) (by decide +kernel)
  simp only [Bool.and_eq_true, decide_eq_true_eq, Bool.not_eq_true'] at hend
  obtain ⟨⟨⟨⟨hactive, hd⟩, ht⟩, hfalse⟩, htrue⟩ := hend
  refine ⟨h, c, hr, hactive, hd, ht, fun t => ?_⟩
  cases t
  · exact hfalse
  · exact htrue

end Niuchacz.Queue
