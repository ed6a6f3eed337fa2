import Mathlib.Data.List.Induction
import Niuchacz.CmdManager.Jobs
import Niuchacz.Lib.Blocks

namespace Niuchacz.Capture

open CmdManager Lib.Blocks Lib.Memory

/-!
# The capture loop (`main.c`)

`pcap_thread_routine` makes a job of every captured packet and hands it to `cmdmgrJobExec`.  Both
of them release a job: `cmdmgrJobExec` at its end, and the loop again if the result is not a
success.

* `pcapRound`, `pcapLoop` — one round of the loop, and any number of them, with everything that
  happens to the blocks of the jobs.
* `pcapRound_spec` — the blocks of one round.
* `jobs_released_once` — when every job of a run is freed exactly once.
* `packets_counted` — the statistics count every packet once, modulo `2 ^ 64`.
-/

/-! ### The loop -/

/-- The name of the command. -/
def packetAnalyze : Text := "PACKET_ANALYZE".toList.map fun c => UInt8.ofNat c.toNat

/-- A captured packet; `caplen` is a 32-bit number. -/
structure Packet where
  data : List UInt8
  ts : Timeval
  caplen_lt : data.length < 2 ^ 32

/-- The job that is made of a packet. -/
def Packet.job (packet : Packet) : Job where
  cmd := packetAnalyze
  data := packet.data
  ts := packet.ts
  flags := 0
  noNul := by decide

/-- What one round of the loop finds: the packet that `pcap_next` returns, if any, the memory and
    the block that `malloc` returns in `cmdmgrJobPrepare`, and the results of `queue_producer_new`
    and of `queue_write`. -/
structure Round where
  packet : Option Packet
  mem : Mem
  malloc : Option UInt64
  env : Env
  registered : Bool
  queueWrite : List UInt8 → ℤ

/-- The number of jobs so far, what has happened to their blocks, and the two counters, which are
    of type `unsigned long long`. -/
structure State where
  jobs : ℕ
  events : List (Event ℕ)
  enq : UInt64
  enqFail : UInt64

/-- Before the first round. -/
def State.init : State := ⟨0, [], 0, 0⟩

/-- What `cmdmgrJobExec` does with the block of an asynchronous job: the size is read from it,
    `queue_write` copies it, and `cmdmgrJobCleanup` frees it. -/
def execEvents (job : ℕ) (result : JobResult) : List (Event ℕ) :=
  .access job :: (if result.written.isSome then [.access job] else []) ++
    if result.freed then [.free job] else []

/-- One round of the loop. -/
def pcapRound (s : State) (r : Round) : Option State :=
  match r.packet with
  | none => some s
  | some packet =>
      match cmdmgrJobPrepare r.mem r.malloc packetAnalyze packet.data packet.ts 0 with
      | (.success, mem, some pjob) => do
          let result ← cmdmgrJobExec (packetAnalyze.length + 1) r.env mem pjob .asynchronous
            .shortOps r.registered r.queueWrite
          let job := s.jobs
          let events := s.events ++ [.alloc job, .access job] ++ execEvents job result
          if result.status ≠ .success then
            return { s with jobs := job + 1, events := events ++ [.free job],
                            enqFail := s.enqFail + 1 }
          return { s with jobs := job + 1, events := events, enq := s.enq + 1 }
      | _ => some { s with enqFail := s.enqFail + 1 }

/-- Any number of rounds. -/
def pcapLoop (rounds : List Round) : Option State := rounds.foldlM pcapRound State.init

/-! ### One round -/

/-- The size of a packet's job is a `size_t`. -/
theorem Packet.size_lt (packet : Packet) : packet.job.size < 2 ^ 64 := by
  have hname : packetAnalyze.length = 14 := by decide
  have hcap := packet.caplen_lt
  simp only [Job.size, Packet.job, sizeofJob, hname]
  omega

/-- The bytes that `queue_write` gets. -/
def Round.block (r : Round) (packet : Packet) (pjob : UInt64) : List UInt8 :=
  load (jobPrepare r.mem pjob packetAnalyze packet.data packet.ts 0) pjob packet.job.size

/-- The queue takes the job: the producer is registered, and `queue_write` returns the size. -/
def Round.takes (r : Round) (packet : Packet) (pjob : UInt64) : Bool :=
  let ret := r.queueWrite (r.block packet pjob)
  r.registered && decide (ret > 0 ∧ UInt64.ofInt ret = UInt64.ofNat packet.job.size)

/-- The queue takes the job of this round, if there is one. -/
def Round.accepted (r : Round) : Bool :=
  match r.packet, r.malloc with
  | some packet, some pjob => r.takes packet pjob
  | _, _ => true

/-- `cmdmgrJobExec` always frees the job, and succeeds if the queue takes it. -/
theorem jobExec_packet (r : Round) (packet : Packet) (pjob : UInt64) :
    cmdmgrJobExec (packetAnalyze.length + 1) r.env
      (jobPrepare r.mem pjob packetAnalyze packet.data packet.ts 0) pjob .asynchronous .shortOps
      r.registered r.queueWrite =
    some ⟨if r.takes packet pjob then .success else .unsuccess,
      if r.registered then some (r.block packet pjob) else none, none, true⟩ := by
  have hat : packet.job.At _ pjob := at_jobPrepare r.mem pjob packet.size_lt
  have hsize : queueEntrySize (packetAnalyze.length + 1)
      (jobPrepare r.mem pjob packetAnalyze packet.data packet.ts 0) pjob =
      some (UInt64.ofNat packet.job.size) := hat.queueEntrySize_eq (Nat.lt_succ_self _)
  have hlen : (UInt64.ofNat packet.job.size).toNat = packet.job.size := by
    rw [UInt64.toNat_ofNat', Nat.mod_eq_of_lt packet.size_lt]
  simp only [cmdmgrJobExec, hsize, Option.map_some, queueSize, Round.takes, Round.block, hlen]
  by_cases hreg : r.registered = true
  · simp [hreg]
  · simp [hreg]

/-- What happens to the job of one round. -/
def jobEvents (r : Round) (packet : Packet) (pjob : UInt64) (job : ℕ) : List (Event ℕ) :=
  [.alloc job, .access job, .access job] ++ (if r.registered then [.access job] else []) ++
    [.free job] ++ if r.takes packet pjob then [] else [.free job]

/-- The second `free` is that of the loop. -/
theorem releasedOnce_jobEvents (r : Round) (packet : Packet) (pjob : UInt64) (job : ℕ) :
    ReleasedOnce job (jobEvents r packet pjob job) ↔ r.takes packet pjob = true := by
  have hlife : life job (jobEvents r packet pjob job) = jobEvents r packet pjob job := by
    refine life_eq_self ?_
    unfold jobEvents
    split <;> split <;> simp [Event.block]
  rw [releasedOnce_iff, hlife, jobEvents]
  cases r.takes packet pjob with
  | true => split <;> simp
  | false => split <;> simp

/-- **One round.**  It makes at most one job, and touches no other. -/
theorem pcapRound_spec (s : State) (r : Round) : ∃ s', pcapRound s r = some s' ∧
    s'.enq + s'.enqFail = s.enq + s.enqFail + UInt64.ofNat r.packet.toList.length ∧
    match r.packet, r.malloc with
    | some packet, some pjob =>
        s'.jobs = s.jobs + 1 ∧ s'.events = s.events ++ jobEvents r packet pjob s.jobs
    | _, _ => s'.jobs = s.jobs ∧ s'.events = s.events := by
  cases hpacket : r.packet with
  | none => exact ⟨s, by rw [pcapRound, hpacket], (UInt64.add_zero _).symm, rfl, rfl⟩
  | some packet =>
    cases hmalloc : r.malloc with
    | none =>
      refine ⟨{ s with enqFail := s.enqFail + 1 }, ?_, (UInt64.add_assoc _ _ _).symm, rfl, rfl⟩
      rw [pcapRound, hpacket, hmalloc]
      rfl
    | some pjob =>
      have hexec := jobExec_packet r packet pjob
      simp only [pcapRound, hpacket, hmalloc, cmdmgrJobPrepare, hexec]
      -- a result that is not a success adds the `free` of the loop
      cases htakes : r.takes packet pjob with
      | true =>
        refine ⟨_, rfl, ?_, rfl, ?_⟩
        · show s.enq + 1 + s.enqFail = s.enq + s.enqFail + 1
          rw [UInt64.add_assoc, UInt64.add_comm 1, UInt64.add_assoc]
        · simp [jobEvents, execEvents, htakes]
      | false =>
        refine ⟨_, rfl, (UInt64.add_assoc _ _ _).symm, rfl, ?_⟩
        simp [jobEvents, execEvents, htakes]

/-! ### Whole runs -/

/-- What holds after the rounds of a run. -/
structure Captured (rounds : List Round) (s : State) : Prop where
  blocks_lt : ∀ e ∈ s.events, e.block < s.jobs
  released_iff : (∀ i < s.jobs, ReleasedOnce i s.events) ↔ ∀ r ∈ rounds, r.accepted = true
  counted : s.enq + s.enqFail = UInt64.ofNat (rounds.filterMap (·.packet)).length

/-- Nothing has been captured before the first round. -/
theorem captured_init : Captured [] State.init where
  blocks_lt := by simp [State.init]
  released_iff := by simp [State.init]
  counted := rfl

/-- The condition on all rounds, when one is added. -/
theorem accepted_snoc {rounds : List Round} {r : Round} :
    (∀ x ∈ rounds ++ [r], x.accepted = true) ↔
      (∀ x ∈ rounds, x.accepted = true) ∧ r.accepted = true := by
  simp [or_imp, forall_and]

/-- A round in which no job is made. -/
theorem Captured.snoc_quiet {rounds : List Round} {s s' : State} {r : Round}
    (h : Captured rounds s) (hjobs : s'.jobs = s.jobs) (hevents : s'.events = s.events)
    (haccepted : r.accepted = true)
    (hcounted : s'.enq + s'.enqFail = UInt64.ofNat ((rounds ++ [r]).filterMap (·.packet)).length) :
    Captured (rounds ++ [r]) s' := by
  refine ⟨?_, ?_, hcounted⟩
  · rw [hjobs, hevents]
    exact h.blocks_lt
  · rw [hjobs, hevents, accepted_snoc, h.released_iff, and_iff_left haccepted]

/-- A round in which a job is made. -/
theorem Captured.snoc_job {rounds : List Round} {s s' : State} {r : Round} {packet : Packet}
    {pjob : UInt64} (h : Captured rounds s) (hjobs : s'.jobs = s.jobs + 1)
    (hevents : s'.events = s.events ++ jobEvents r packet pjob s.jobs)
    (haccepted : r.accepted = r.takes packet pjob)
    (hcounted : s'.enq + s'.enqFail = UInt64.ofNat ((rounds ++ [r]).filterMap (·.packet)).length) :
    Captured (rounds ++ [r]) s' := by
  have hblock : ∀ e ∈ jobEvents r packet pjob s.jobs, e.block = s.jobs := by
    unfold jobEvents
    split <;> split <;> simp [Event.block]
  -- the job of this round is the last one, and none of the others is touched
  have hold : ∀ i < s.jobs, ReleasedOnce i s'.events ↔ ReleasedOnce i s.events := by
    intro i hi
    rw [hevents]
    refine releasedOnce_append_left fun e hmem => ?_
    rw [hblock e hmem]
    omega
  have hnew : ReleasedOnce s.jobs s'.events ↔ r.accepted = true := by
    rw [hevents, releasedOnce_append_right fun e hmem => (h.blocks_lt e hmem).ne,
      releasedOnce_jobEvents, haccepted]
  refine ⟨?_, ?_, hcounted⟩
  · rw [hjobs, hevents]
    intro e hmem
    rcases List.mem_append.mp hmem with hmem | hmem
    · exact Nat.lt_succ_of_lt (h.blocks_lt e hmem)
    · rw [hblock e hmem]
      exact Nat.lt_succ_self _
  · rw [accepted_snoc, ← h.released_iff, ← hnew, hjobs]
    constructor
    · intro hrel
      exact ⟨fun i hi => (hold i hi).mp (hrel i (by omega)), hrel s.jobs (by omega)⟩
    · rintro ⟨hrel, hlast⟩ i hi
      rcases Nat.lt_succ_iff_lt_or_eq.mp hi with hi | rfl
      · exact (hold i hi).mpr (hrel i hi)
      · exact hlast

/-- **Step.**  A round keeps all of it. -/
theorem Captured.snoc {rounds : List Round} {s s' : State} {r : Round} (h : Captured rounds s)
    (hround : pcapRound s r = some s') : Captured (rounds ++ [r]) s' := by
  obtain ⟨s₁, hs₁, hcount, hjobs⟩ := pcapRound_spec s r
  rw [hround] at hs₁
  cases hs₁
  -- every captured packet counts as enqueued or as failed
  have hcounted : s'.enq + s'.enqFail =
      UInt64.ofNat ((rounds ++ [r]).filterMap (·.packet)).length := by
    rw [hcount, h.counted, List.filterMap_append, List.length_append, UInt64.ofNat_add]
    cases hpacket : r.packet <;> simp [hpacket]
  cases hpacket : r.packet with
  -- ==> without a packet, or without memory for its job, nothing is sent
  | none =>
    rw [hpacket] at hjobs
    exact h.snoc_quiet hjobs.1 hjobs.2 (by simp [Round.accepted, hpacket]) hcounted
  | some packet =>
    cases hmalloc : r.malloc with
    | none =>
      rw [hpacket, hmalloc] at hjobs
      exact h.snoc_quiet hjobs.1 hjobs.2 (by simp [Round.accepted, hpacket, hmalloc]) hcounted
    | some pjob =>
      rw [hpacket, hmalloc] at hjobs
      exact h.snoc_job hjobs.1 hjobs.2 (by simp [Round.accepted, hpacket, hmalloc]) hcounted

/-- **Run.**  The loop goes through all its rounds, and all of it holds afterwards. -/
theorem captured_loop (rounds : List Round) :
    ∃ s, pcapLoop rounds = some s ∧ Captured rounds s := by
  induction rounds using List.reverseRecOn with
  | nil => exact ⟨State.init, rfl, captured_init⟩
  | append_singleton rounds r ih =>
    obtain ⟨s, hs, hcap⟩ := ih
    obtain ⟨s', hs', -⟩ := pcapRound_spec s r
    refine ⟨s', ?_, hcap.snoc hs'⟩
    rw [pcapLoop, List.foldlM_append, ← pcapLoop, hs]
    simp [hs']

/-- **Jobs are released exactly once** and not touched afterwards, in a run of the loop of any
    length, exactly if the queue takes every job that is made. -/
theorem jobs_released_once (rounds : List Round) : ∃ s, pcapLoop rounds = some s ∧
    ((∀ i < s.jobs, ReleasedOnce i s.events) ↔ ∀ r ∈ rounds, r.accepted = true) := by
  obtain ⟨s, hs, hcap⟩ := captured_loop rounds
  exact ⟨s, hs, hcap.released_iff⟩

/-- A packet without data, at a time when the queue is closing. -/
def closingRound : Round where
  packet := some ⟨[], ⟨0, 0⟩, by decide⟩
  mem := fun _ => 0
  malloc := some 4096
  env := ⟨0, 0, .ok, [], fun _ => 0⟩
  registered := false
  queueWrite := fun _ => 0

/-- No producer is registered any more: the job is freed by `cmdmgrJobExec` and by the loop. -/
theorem job_released_twice : ∃ s, pcapLoop [closingRound] = some s ∧ s.jobs = 1 ∧
    ¬ ReleasedOnce 0 s.events ∧ s.events.count (.free 0) = 2 := by
  obtain ⟨s, hs, -, hjobs, hevents⟩ := pcapRound_spec State.init closingRound
  refine ⟨s, ?_, hjobs, ?_, ?_⟩
  · simp [pcapLoop, hs]
  · rw [hevents]
    exact fun h => Bool.false_ne_true ((releasedOnce_jobEvents closingRound _ _ 0).mp h)
  · rw [hevents]
    rfl

/-- Every packet is counted once, as sent or as failed, by counters that wrap around. -/
theorem packets_counted (rounds : List Round) : ∃ s, pcapLoop rounds = some s ∧
    s.enq + s.enqFail = UInt64.ofNat (rounds.filterMap (·.packet)).length := by
  obtain ⟨s, hs, hcap⟩ := captured_loop rounds
  exact ⟨s, hs, hcap.counted⟩

end Niuchacz.Capture
