import Niuchacz.Lib.Transition

namespace Niuchacz.SvcKernel

open Lib.Transition

/-!
# The status of the service (`svc_kernel/svc_kernel.c`)

`_status` is read and written atomically, but `svcKernelStatus` first reads it and then, in a
second step, writes it.  The main thread, signal handlers and other threads call it at any time.

* `KStatus` — the results of `svc_status.h`.
* `newStatus` — the transition check of `svcKernelStatus`.
* `step` — the callers, one atomic operation at a time.
* `stop_request_kept` — a stored stop request stays, unless it was stored while another call stood
  between its read of `SVC_KERNEL_STATUS_START_PENDING` and its write of
  `SVC_KERNEL_STATUS_RUNNING`; that write then undoes it.
-/

/-- `KSTATUS`. -/
inductive KStatus where
  | success | unsuccess | outOfMemory | svcIsStopping | dbMountError | dbExecError
  | cmdmgrCommandNotFound | psmgrIdleMaskSignals | psmgrIdleWaitpid | invalidParameters
  | dbOpenError | dbIncompatibleState
  deriving DecidableEq

def SVC_KERNEL_STATUS_START_PENDING : Int32 := 1
def SVC_KERNEL_STATUS_RUNNING : Int32 := 2
def SVC_KERNEL_STATUS_STOP_PENDING : Int32 := 3

/-! ### Calls -/

/-- The transition check of `svcKernelStatus`: what is to be stored, `none` if the request is
    refused. -/
def newStatus (requested_status old_status : Int32) : Option Int32 :=
  if requested_status = SVC_KERNEL_STATUS_STOP_PENDING ∧
      (old_status = SVC_KERNEL_STATUS_START_PENDING ∨ old_status = SVC_KERNEL_STATUS_RUNNING) then
    some SVC_KERNEL_STATUS_STOP_PENDING
  else if requested_status = SVC_KERNEL_STATUS_RUNNING ∧
      old_status = SVC_KERNEL_STATUS_START_PENDING then
    some SVC_KERNEL_STATUS_RUNNING
  else none

/-- Where a caller is in `svcKernelStatus`: before the atomic load, or before the atomic store. -/
inductive Pc where
  | idle
  | load (requested_status : Int32)
  | store (status : Int32)
  deriving DecidableEq

/-- `_status` and the callers; `returned` notes what the finished calls returned. -/
structure State (ι : Type) where
  status : Int32
  pc : ι → Pc
  returned : List (ι × KStatus)

/-- What a caller does: it calls `svcKernelStatus`, or goes on in the call it is in. -/
inductive Act where
  | call (requested_status : Int32)
  | go
  deriving DecidableEq

/-- After `svcKernelInit` has stored the first status. -/
def svcKernelInit (ι : Type) : State ι where
  status := SVC_KERNEL_STATUS_START_PENDING
  pc := fun _ => .idle
  returned := []

/-- `svcKernelIsRunning`, a macro that reads `_status` twice. -/
def svcKernelIsRunning (first second : Int32) : Bool :=
  first = SVC_KERNEL_STATUS_RUNNING || second = SVC_KERNEL_STATUS_START_PENDING

section
variable {ι : Type} [DecidableEq ι]

/-- `svcKernelStatus`, step by step. -/
def step (s : State ι) : ι × Act → Option (State ι)
  | (t, .call requested_status) =>
      match s.pc t with
      | .idle => some { s with pc := Function.update s.pc t (.load requested_status) }
      | _ => none
  | (t, .go) =>
      match s.pc t with
      | .idle => none
      | .load requested_status =>
          match newStatus requested_status s.status with
          | some status => some { s with pc := Function.update s.pc t (.store status) }
          | none =>
              some { s with
                pc := Function.update s.pc t .idle
                returned := s.returned ++ [(t, .unsuccess)] }
      | .store status =>
          some
            { status := status
              pc := Function.update s.pc t .idle
              returned := s.returned ++ [(t, .success)] }

/-- The step stores a stop request. -/
def StoresStop (s : State ι) (l : ι × Act) : Prop :=
  l.2 = .go ∧ s.pc l.1 = .store SVC_KERNEL_STATUS_STOP_PENDING

/-- The step stores a stop request while another call is about to store
    `SVC_KERNEL_STATUS_RUNNING`. -/
def Raced (s : State ι) (l : ι × Act) : Prop :=
  StoresStop s l ∧ ∃ u, s.pc u = .store SVC_KERNEL_STATUS_RUNNING

variable {s s' : State ι} {l : ι × Act} {h : List (State ι × ι × Act)}

/-! ### What a step does -/

/-- `svcKernelStatus` stores a stop, or a start that was pending. -/
theorem newStatus_cases {requested_status old_status v : Int32}
    (hv : newStatus requested_status old_status = some v) :
    v = SVC_KERNEL_STATUS_STOP_PENDING ∨
      (v = SVC_KERNEL_STATUS_RUNNING ∧ old_status = SVC_KERNEL_STATUS_START_PENDING) := by
  unfold newStatus at hv
  split at hv
  · exact Or.inl (Option.some.inj hv).symm
  · split at hv
    · rename_i hreq
      exact Or.inr ⟨(Option.some.inj hv).symm, hreq.2⟩
    · exact absurd hv (by simp)

/-- What a step does: either it stores nothing and sends the caller on, to a store only if the
    transition check allows it, or it is a store. -/
theorem step_cases {t : ι} {a : Act} (hs : step s (t, a) = some s') :
    ((∀ v, s.pc t ≠ .store v) ∧ s'.status = s.status ∧ ∃ p, s'.pc = Function.update s.pc t p ∧
      ∀ v, p = .store v → v = SVC_KERNEL_STATUS_STOP_PENDING ∨
        (v = SVC_KERNEL_STATUS_RUNNING ∧ s.status = SVC_KERNEL_STATUS_START_PENDING)) ∨
    (∃ v, s.pc t = .store v ∧ s' =
      { status := v
        pc := Function.update s.pc t .idle
        returned := s.returned ++ [(t, .success)] }) := by
  cases a with
  | call requested_status =>
    simp only [step] at hs
    split at hs
    · rename_i hpc
      cases hs
      exact Or.inl ⟨by rw [hpc]; rintro _ ⟨⟩, rfl, _, rfl, by rintro _ ⟨⟩⟩
    · exact absurd hs (by simp)
  | go =>
    simp only [step] at hs
    split at hs
    · exact absurd hs (by simp)
    · rename_i requested_status hpc
      split at hs
      · rename_i v hv
        cases hs
        refine Or.inl ⟨by rw [hpc]; rintro _ ⟨⟩, rfl, _, rfl, ?_⟩
        intro w hw
        cases hw
        -- the check has looked at the status that is still stored
        exact newStatus_cases hv
      · cases hs
        exact Or.inl ⟨by rw [hpc]; rintro _ ⟨⟩, rfl, _, rfl, by rintro _ ⟨⟩⟩
    · rename_i v hpc
      cases hs
      exact Or.inr ⟨v, hpc, rfl⟩

/-- The step that stores a stop request. -/
theorem step_storesStop (hs : step s l = some s') (hst : StoresStop s l) : s' =
    { status := SVC_KERNEL_STATUS_STOP_PENDING
      pc := Function.update s.pc l.1 .idle
      returned := s.returned ++ [(l.1, .success)] } := by
  rcases step_cases (t := l.1) (a := l.2) hs with ⟨hno, -⟩ | ⟨v, hv, hs'⟩
  · exact absurd hst.2 (hno _)
  · rw [hst.2, Pc.store.injEq] at hv
    rw [hs', hv]

/-! ### Runs -/

/-- Only the two statuses of the transition check are ever stored. -/
theorem store_cases (hr : Run step (svcKernelInit ι) h s) :
    ∀ u v, s.pc u = .store v →
      v = SVC_KERNEL_STATUS_STOP_PENDING ∨ v = SVC_KERNEL_STATUS_RUNNING := by
  refine hr.invariant (fun _ _ => True)
    (fun s => ∀ u v, s.pc u = .store v →
      v = SVC_KERNEL_STATUS_STOP_PENDING ∨ v = SVC_KERNEL_STATUS_RUNNING)
    (by rintro _ _ ⟨⟩) ?_ (fun _ _ => trivial)
  rintro s ⟨t, a⟩ s' hall - hs u v hu
  -- a call has decided what to store, or the store is made
  rcases step_cases hs with ⟨-, -, p, hpc, hp⟩ | ⟨w, -, rfl⟩
  · rw [hpc] at hu
    by_cases hut : u = t
    · rw [hut, Function.update_self] at hu
      exact (hp v hu).imp_right And.left
    · rw [Function.update_of_ne hut] at hu
      exact hall u v hu
  · have hu' : Function.update s.pc t .idle u = .store v := hu
    by_cases hut : u = t
    · rw [hut, Function.update_self] at hu'
      exact absurd hu' (by rintro ⟨⟩)
    · rw [Function.update_of_ne hut] at hu'
      exact hall u v hu'

/-- The stop request is there to stay: no call is about to store anything else. -/
def Stopped (s : State ι) : Prop :=
  s.status = SVC_KERNEL_STATUS_STOP_PENDING ∧ ∀ u, s.pc u ≠ .store SVC_KERNEL_STATUS_RUNNING

/-- Who is about to store after a call has returned was so before. -/
theorem ne_store_of_idle {t : ι} {p : Pc} (hnone : ∀ u, s.pc u ≠ p) (hp : p ≠ .idle) (u : ι) :
    Function.update s.pc t .idle u ≠ p := by
  by_cases hut : u = t
  · rw [hut, Function.update_self]
    exact Ne.symm hp
  · rw [Function.update_of_ne hut]
    exact hnone u

/-- **Step.**  A stop request that is there to stay stays. -/
theorem stopped_step (hr : Run step (svcKernelInit ι) h s) (hst : Stopped s)
    (hs : step s l = some s') : Stopped s' := by
  obtain ⟨hstop, hnone⟩ := hst
  rcases step_cases (t := l.1) (a := l.2) hs with ⟨-, hsame, p, hpc, hp⟩ | ⟨v, hv, rfl⟩
  · refine ⟨hsame.trans hstop, ?_⟩
    rw [hpc]
    intro u hu
    by_cases hut : u = l.1
    · -- the transition check does not lead from here to another status
      rw [hut, Function.update_self] at hu
      rcases hp _ hu with hstop' | ⟨-, hstart⟩
      · exact absurd hstop' (by decide)
      · rw [hstop] at hstart
        exact absurd hstart (by decide)
    · rw [Function.update_of_ne hut] at hu
      exact hnone u hu
  · refine ⟨?_, ne_store_of_idle hnone (by rintro ⟨⟩)⟩
    rcases store_cases hr _ _ hv with hv' | hv'
    · exact hv'
    · rw [hv'] at hv
      exact absurd hv (hnone l.1)

/-- **Run.**  After a stop request has been stored, in a run without races. -/
theorem stopped_run (hr : Run step (svcKernelInit ι) h s) (hrace : ∀ p ∈ h, ¬ Raced p.1 p.2)
    (hstop : ∃ p ∈ h, StoresStop p.1 p.2) : Stopped s := by
  induction hr with
  | nil =>
    obtain ⟨p, hp, -⟩ := hstop
    exact absurd hp (by simp)
  | @snoc h s s' l hr hs ih =>
    obtain ⟨p, hp, hst⟩ := hstop
    rw [List.mem_append, List.mem_singleton] at hp
    rcases hp with hp | rfl
    · exact stopped_step hr (ih (fun p hp => hrace p (by simp [hp])) ⟨p, hp, hst⟩) hs
    · -- the step is the store, and nobody else is about to store
      have hnone : ∀ u, s.pc u ≠ .store SVC_KERNEL_STATUS_RUNNING := fun u hu =>
        hrace (s, l) (by simp) ⟨hst, u, hu⟩
      rw [step_storesStop hs hst]
      exact ⟨rfl, ne_store_of_idle hnone (by rintro ⟨⟩)⟩

/-- After a race the other call undoes the stop request with its next step. -/
theorem undone_of_raced (hs : step s l = some s') (hrace : Raced s l) :
    ∃ u s'', step s' (u, .go) = some s'' ∧ s''.status = SVC_KERNEL_STATUS_RUNNING := by
  obtain ⟨hst, u, hu⟩ := hrace
  have hul : u ≠ l.1 := by
    rintro rfl
    rw [hst.2] at hu
    exact absurd hu (by decide)
  have hpc : s'.pc u = .store SVC_KERNEL_STATUS_RUNNING := by
    rw [step_storesStop hs hst]
    show Function.update s.pc l.1 .idle u = _
    rw [Function.update_of_ne hul, hu]
  refine ⟨u, { status := SVC_KERNEL_STATUS_RUNNING
               pc := Function.update s'.pc u .idle
               returned := s'.returned ++ [(u, .success)] }, ?_, rfl⟩
  simp only [step, hpc]

/-- **Stop requests.**  In a run in which no stop request is stored while another call is about to
    store `SVC_KERNEL_STATUS_RUNNING`, the status stays `SVC_KERNEL_STATUS_STOP_PENDING` once it
    has been stored (by a call that returned success), and the service is not running any more.
    Any step that does store it at such a moment can be undone by the next step. -/
theorem stop_request_kept (hr : Run step (svcKernelInit ι) h s) :
    ((∀ p ∈ h, ¬ Raced p.1 p.2) → (∃ p ∈ h, StoresStop p.1 p.2) →
      s.status = SVC_KERNEL_STATUS_STOP_PENDING ∧
      ∀ h' s', Run step s h' s' → (∀ p ∈ h', ¬ Raced p.1 p.2) →
        svcKernelIsRunning s.status s'.status = false) ∧
    (∀ l s', step s l = some s' → StoresStop s l →
      s'.returned = s.returned ++ [(l.1, .success)] ∧
      (Raced s l → ∃ u s'', step s' (u, .go) = some s'' ∧
        svcKernelIsRunning s''.status s''.status = true)) := by
  constructor
  · intro hrace hstop
    have hst := stopped_run hr hrace hstop
    refine ⟨hst.1, ?_⟩
    intro h' s' hr' hrace'
    -- the second read happens at the end of a longer run
    have hst' : Stopped s' := by
      refine stopped_run (hr.trans hr') ?_ ?_
      · intro p hp
        rcases List.mem_append.mp hp with hp | hp
        · exact hrace p hp
        · exact hrace' p hp
      · obtain ⟨p, hp, hp'⟩ := hstop
        exact ⟨p, List.mem_append_left _ hp, hp'⟩
    unfold svcKernelIsRunning
    rw [hst.1, hst'.1]
    decide
  · intro l s' hs hstop
    refine ⟨by rw [step_storesStop hs hstop], ?_⟩
    intro hrace
    obtain ⟨u, s'', hs'', hrun⟩ := undone_of_raced hs hrace
    refine ⟨u, s'', hs'', ?_⟩
    unfold svcKernelIsRunning
    rw [hrun]
    decide

end

/-! ### The main thread and a signal handler

Thread `false` is the main thread, which asks for `SVC_KERNEL_STATUS_RUNNING`; thread `true` is
the signal handler, which asks for `SVC_KERNEL_STATUS_STOP_PENDING`. -/

/-- The main thread's call up to its store. -/
def mainStarts : List (Bool × Act) := [(false, .call SVC_KERNEL_STATUS_RUNNING), (false, .go)]

/-- The handler's call up to its store. -/
def handlerStops : List (Bool × Act) := [(true, .call SVC_KERNEL_STATUS_STOP_PENDING), (true, .go)]

/-- The handler does not move while the main thread is about to store. -/
def inOrder (s : State Bool) (l : Bool × Act) : Bool :=
  l.1 = false || s.pc false ≠ .store SVC_KERNEL_STATUS_RUNNING

theorem not_raced_of_inOrder {s : State Bool} {l : Bool × Act}
    (hu : s.pc true ≠ .store SVC_KERNEL_STATUS_RUNNING)
    (hm : s.pc false ≠ .store SVC_KERNEL_STATUS_STOP_PENDING) (h : inOrder s l = true) :
    ¬ Raced s l := by
  rintro ⟨⟨-, hstop⟩, u, hrun⟩
  cases u with
  | true => exact hu hrun
  | false =>
    rcases hl : l.1 with _ | _
    · rw [hl] at hstop
      exact hm hstop
    · simp [inOrder, hl, hrun] at h

/-- The handler stores its request after the main thread has stored its own. -/
theorem stop_request_kept_in_order :
    ∃ h s, Run step (svcKernelInit Bool) h s ∧ (false, KStatus.success) ∈ s.returned ∧
      s.status = SVC_KERNEL_STATUS_STOP_PENDING := by
  obtain ⟨h, s, hr, hok, hend⟩ := exists_run_of_play step (svcKernelInit Bool)
    (fun s l => s.pc true ≠ .store SVC_KERNEL_STATUS_RUNNING &&
      s.pc false ≠ .store SVC_KERNEL_STATUS_STOP_PENDING && inOrder s l)
    (fun s => s.pc true = .store SVC_KERNEL_STATUS_STOP_PENDING && s.pc false = .idle &&
      (false, KStatus.success) ∈ s.returned)
    (mainStarts ++ [(false, .go)] ++ handlerStops) (by decide)
  simp only [Bool.and_eq_true, decide_eq_true_eq] at hok hend
  obtain ⟨⟨hstop, hidle⟩, hret⟩ := hend
  -- one more step: the handler stores its request
  have hs : step s (true, .go) = some
      { status := SVC_KERNEL_STATUS_STOP_PENDING
        pc := Function.update s.pc true .idle
        returned := s.returned ++ [(true, .success)] } := by
    simp only [step, hstop]
  refine ⟨_, _, hr.snoc hs, List.mem_append_left _ hret, ?_⟩
  refine ((stop_request_kept (hr.snoc hs)).1 ?_ ⟨(s, (true, .go)), by simp, rfl, hstop⟩).1
  intro p hp
  rcases List.mem_append.mp hp with hp | hp
  · obtain ⟨⟨hu, hm⟩, hin⟩ := hok p hp
    exact not_raced_of_inOrder hu hm hin
  · rw [List.mem_singleton] at hp
    rw [hp]
    exact not_raced_of_inOrder (by rw [hstop]; decide) (by rw [hidle]; rintro ⟨⟩)
      (by simp [inOrder, hidle])

/-- The handler's whole call falls between the main thread's load and its store. -/
theorem stop_request_undone :
    ∃ h s, Run step (svcKernelInit Bool) h s ∧ (true, KStatus.success) ∈ s.returned ∧
      s.status = SVC_KERNEL_STATUS_RUNNING ∧ svcKernelIsRunning s.status s.status = true := by
  obtain ⟨h, s, hr, -, hend⟩ := exists_run_of_play step (svcKernelInit Bool) (fun _ _ => true)
    (fun s => (true, KStatus.success) ∈ s.returned && s.status = SVC_KERNEL_STATUS_RUNNING &&
      svcKernelIsRunning s.status s.status)
    (mainStarts ++ handlerStops ++ [(true, .go), (false, .go)]) (by decide)
  simp only [Bool.and_eq_true, decide_eq_true_eq] at hend
  exact ⟨h, s, hr, hend.1.1, hend.1.2, hend.2⟩

end Niuchacz.SvcKernel
