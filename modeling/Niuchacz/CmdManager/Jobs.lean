import Niuchacz.CmdManager.Commands
import Niuchacz.Lib.Memory
import Niuchacz.Queue.Returns

namespace Niuchacz.CmdManager

open Lib.Memory Lib.Bytes Lib.Transition SvcKernel Database
open Queue (QueueT Entry ReadReturn queueCreate toInt headerSize headerLen)

/-!
# Jobs (`svc_kernel/execute_unit/cmd_manager.c`)

A job is one block of memory: a `JOB` of 48 bytes, the command's name with its terminating zero,
and the data.  The `JOB` holds pointers into the block; a job that goes through a queue is copied
byte by byte, so that they have to be computed again at the other end.

* `cmdmgrJobPrepare`, `cmdmgrJobExec` — build a job; execute it at once or send it to a queue.
* `executorJob` — the body of the loop of `i_cmdmgrExecutor`.
* `Job`, `Job.run` — what a job is, and what it means to execute it.
* `async_eq_sync` — a job means the same whether it is executed at once or sent.
* `accepted_job_fits` — which of the accepted jobs fit into the executor's buffer.

The memory is an arbitrary map from addresses to bytes and every address is allowed, also one at
which the block wraps around.  Logging and the statistics of the executor are left out.
-/

/-! ### The code -/

/-- `struct timeval`. -/
structure Timeval where
  tvSec : Int64
  tvUsec : Int64
  deriving DecidableEq

/-- `sizeof(JOB)`: `_cmd`, `_ts` (16 bytes), `_flags` with padding, `_data`, `_dataSize`. -/
def sizeofJob : ℕ := 48

/-- The offsets of the members of `JOB`; `_cmd` is at offset 0. -/
def offSec : ℕ := 8
def offUsec : ℕ := 16
def offFlags : ℕ := 24
def offData : ℕ := 32
def offDataSize : ℕ := 40

/-- `i_cmdmgrJobStructInitialize`. -/
def jobStructInitialize (m : Mem) (pjob : UInt64) (cmd : Text) : Mem :=
  let m := store64 m pjob (shift pjob sizeofJob)
  store64 m (shift pjob offData) (shift (load64 m pjob) (cmd.length + 1))

/-- `i_cmdmgrJobStructFormat`. -/
def jobStructFormat (fuel : ℕ) (m : Mem) (pjob : UInt64) : Option Mem :=
  let m := store64 m pjob (shift pjob sizeofJob)
  (strlen fuel m (load64 m pjob)).map fun len =>
    store64 m (shift pjob offData) (shift (load64 m pjob) (len + 1))

/-- `cmdmgrJobPrepare` after `malloc` has returned `pjob2`. -/
def jobPrepare (m : Mem) (pjob2 : UInt64) (cmd : Text) (pdata : List UInt8) (ts : Timeval)
    (flags : UInt32) : Mem :=
  let m := jobStructInitialize m pjob2 cmd
  let m := store m (load64 m pjob2) (cmd ++ [0])
  let m := store64 m (shift pjob2 offSec) ts.tvSec.toUInt64
  let m := store64 m (shift pjob2 offUsec) ts.tvUsec.toUInt64
  let m := store m (shift pjob2 offFlags) (leBytes 4 flags.toNat)
  let m := store m (load64 m (shift pjob2 offData)) pdata
  store64 m (shift pjob2 offDataSize) (UInt64.ofNat pdata.length)

/-- `cmdmgrJobPrepare`; `malloc` is the block it gets, if any. -/
def cmdmgrJobPrepare (m : Mem) (malloc : Option UInt64) (cmd : Text) (pdata : List UInt8)
    (ts : Timeval) (flags : UInt32) : KStatus × Mem × Option UInt64 :=
  match malloc with
  | none => (.outOfMemory, m, none)
  | some pjob2 => (.success, jobPrepare m pjob2 cmd pdata ts flags, some pjob2)

/-- A call of a command's handler; the data are the `dataSize` bytes at the pointer it gets. -/
structure ExecCall where
  pexec : UInt64
  ts : Timeval
  data : List UInt8
  dataSize : UInt64
  deriving DecidableEq

/-- What an execution of a job finds: the two readings of the kernel's status, the command table
    with sqlite's answers, and what the handlers return. -/
structure Env where
  first : Int32
  second : Int32
  ans : Answer
  table : List CmdRow
  handler : ExecCall → Int32

/-- What an execution of a job does: the name it looks up, the handler it calls, its result. -/
structure Execution where
  lookup : Option Text
  call : Option ExecCall
  status : KStatus
  deriving DecidableEq

/-- The C string at an address. -/
def cString (fuel : ℕ) (m : Mem) (p : UInt64) : Option Text :=
  (strlen fuel m p).map fun len => load m p len

/-- `i_cmdmgrJobExec`. -/
def jobExec (fuel : ℕ) (env : Env) (m : Mem) (pjob : UInt64) : Option Execution :=
  if !svcKernelIsRunning env.first env.second then some ⟨none, none, .svcIsStopping⟩
  else
    (cString fuel m (load64 m pjob)).map fun cmd =>
      let pexec := findExec env.ans env.table cmd
      if pexec = 0 then ⟨some cmd, none, .cmdmgrCommandNotFound⟩
      else
        let ts : Timeval :=
          ⟨(load64 m (shift pjob offSec)).toInt64, (load64 m (shift pjob offUsec)).toInt64⟩
        let dataSize := load64 m (shift pjob offDataSize)
        let call : ExecCall :=
          ⟨pexec, ts, load m (load64 m (shift pjob offData)) dataSize.toNat, dataSize⟩
        ⟨some cmd, some call, if env.handler call ≠ 0 then .unsuccess else .success⟩

inductive JobMode where
  | synchronous
  | asynchronous
  deriving DecidableEq

inductive JobQueueType where
  | none
  | shortOps
  | longOps
  deriving DecidableEq

/-- The sizes that `cmdmgrStart` gives to the queues. -/
def queueSize : JobQueueType → Option ℕ
  | .none => none
  | .shortOps => some (1024 * 1024 * 1024)
  | .longOps => some (1024 * 1024)

/-- `queueEntrySize` in `cmdmgrJobExec`. -/
def queueEntrySize (fuel : ℕ) (m : Mem) (pjob : UInt64) : Option UInt64 :=
  (strlen fuel m (load64 m pjob)).map fun len =>
    load64 m (shift pjob offDataSize) + UInt64.ofNat len + 1 + UInt64.ofNat sizeofJob

/-- What `cmdmgrJobExec` does: its result, the bytes it has given to `queue_write`, the execution
    of a synchronous job, and whether it has freed the job. -/
structure JobResult where
  status : KStatus
  written : Option (List UInt8)
  execution : Option Execution
  freed : Bool
  deriving DecidableEq

/-- `cmdmgrJobExec`; `registered` is the result of `queue_producer_new`, and `queueWrite` that of
    `queue_write` for the bytes it is given. -/
def cmdmgrJobExec (fuel : ℕ) (env : Env) (m : Mem) (pjob : UInt64) (mode : JobMode)
    (queueType : JobQueueType) (registered : Bool) (queueWrite : List UInt8 → ℤ) :
    Option JobResult :=
  match mode with
  | .asynchronous =>
      (queueEntrySize fuel m pjob).map fun size =>
        match queueSize queueType with
        | none => ⟨.unsuccess, none, none, false⟩
        | some _ =>
            if registered then
              let bytes := load m pjob size.toNat
              let ret := queueWrite bytes
              ⟨if ret > 0 ∧ UInt64.ofInt ret = size then .success else .unsuccess,
                some bytes, none, true⟩
            else ⟨.unsuccess, none, none, true⟩
  | .synchronous =>
      (jobExec fuel env m pjob).map fun x => ⟨x.status, none, some x, true⟩

/-- The size of the buffer of `i_cmdmgrExecutor`. -/
def executorBuffer : ℕ := 1024 * 1024

/-- The body of the loop of `i_cmdmgrExecutor`, for what `queue_read` has copied into `buffer` and
    returned: the execution of the job, if there is one. -/
def executorJob (fuel : ℕ) (env : Env) (m : Mem) (buffer : UInt64) (r : ReadReturn) :
    Option (Option Execution) :=
  let m := match r.payload with
    | some bytes => store m buffer bytes
    | none => m
  if r.ret > 0 then
    (jobStructFormat fuel m buffer).bind fun m => (jobExec fuel env m buffer).map some
  else some none

/-! ### What a job means -/

/-- The arguments of `cmdmgrJobPrepare`: a name is a C string. -/
structure Job where
  cmd : Text
  data : List UInt8
  ts : Timeval
  flags : UInt32
  noNul : 0 ∉ cmd

/-- The size of a job's block. -/
def Job.size (job : Job) : ℕ := sizeofJob + (job.cmd.length + 1) + job.data.length

/-- The execution of a job: the handler of its command gets its time and data. -/
def Job.run (env : Env) (job : Job) : Execution :=
  if !svcKernelIsRunning env.first env.second then ⟨none, none, .svcIsStopping⟩
  else
    let pexec := findExec env.ans env.table job.cmd
    if pexec = 0 then ⟨some job.cmd, none, .cmdmgrCommandNotFound⟩
    else
      let call : ExecCall := ⟨pexec, job.ts, job.data, UInt64.ofNat job.data.length⟩
      ⟨some job.cmd, some call, if env.handler call ≠ 0 then .unsuccess else .success⟩

/-- Everything of a job's block that does not depend on the block's address. -/
structure Job.Body (m : Mem) (p : UInt64) (job : Job) : Prop where
  size_lt : job.size < 2 ^ 64
  sec : load64 m (shift p offSec) = job.ts.tvSec.toUInt64
  usec : load64 m (shift p offUsec) = job.ts.tvUsec.toUInt64
  dataSize : load64 m (shift p offDataSize) = UInt64.ofNat job.data.length
  name : load m (shift p sizeofJob) (job.cmd.length + 1) = job.cmd ++ [0]
  data : load m (shift p (sizeofJob + (job.cmd.length + 1))) job.data.length = job.data

/-- A job's block at the address for which its pointers have been computed. -/
structure Job.At (m : Mem) (p : UInt64) (job : Job) : Prop extends Job.Body m p job where
  cmdPtr : load64 m p = shift p sizeofJob
  dataPtr : load64 m (shift p offData) = shift p (sizeofJob + (job.cmd.length + 1))

variable {m : Mem} {p : UInt64} {job : Job} {fuel : ℕ}

/-- The length of the data of a job in memory is what its type can hold. -/
theorem Job.Body.length_lt (h : job.Body m p) : job.data.length < 2 ^ 64 := by
  have := h.size_lt
  unfold Job.size at this
  omega

/-- The name is found where the block has it. -/
theorem Job.Body.strlen_eq (h : job.Body m p) (hf : job.cmd.length < fuel) :
    strlen fuel m (shift p sizeofJob) = some job.cmd.length :=
  Lib.Memory.strlen_eq job.noNul h.name hf

/-- A job's block is executed as the job. -/
theorem Job.At.exec (h : job.At m p) (hf : job.cmd.length < fuel) (env : Env) :
    jobExec fuel env m p = some (job.run env) := by
  have hname : load m (shift p sizeofJob) job.cmd.length = job.cmd := by
    rw [← take_load m _ (Nat.le_succ _), h.name, List.take_left]
  have hcmd : cString fuel m (load64 m p) = some job.cmd := by
    rw [cString, h.cmdPtr, h.strlen_eq hf, Option.map_some, hname]
  have hlen : (UInt64.ofNat job.data.length).toNat = job.data.length := by
    rw [UInt64.toNat_ofNat', Nat.mod_eq_of_lt h.length_lt]
  unfold jobExec Job.run
  simp only [hcmd, h.sec, h.usec, h.dataSize, h.dataPtr, hlen, h.data, Option.map_some,
    Int64.toInt64_toUInt64]
  split <;> rfl

/-- `queueEntrySize` is the size of the block. -/
theorem Job.At.queueEntrySize_eq (h : job.At m p) (hf : job.cmd.length < fuel) :
    queueEntrySize fuel m p = some (UInt64.ofNat job.size) := by
  rw [queueEntrySize, h.cmdPtr, h.strlen_eq hf, Option.map_some, h.dataSize]
  refine congrArg some ?_
  have h1 : (1 : UInt64) = UInt64.ofNat 1 := rfl
  rw [h1, ← UInt64.ofNat_add, ← UInt64.ofNat_add, ← UInt64.ofNat_add, Job.size]
  refine congrArg UInt64.ofNat ?_
  omega

/-! ### Building and moving blocks -/

/-- The stores of `cmdmgrJobPrepare` into the block at `p`, in their order. -/
def Job.stores (p : UInt64) (job : Job) : List (ℕ × List UInt8) :=
  [(0, leBytes 8 (shift p sizeofJob).toNat),
   (offData, leBytes 8 (shift p (sizeofJob + (job.cmd.length + 1))).toNat),
   (sizeofJob, job.cmd ++ [0]),
   (offSec, leBytes 8 job.ts.tvSec.toUInt64.toNat),
   (offUsec, leBytes 8 job.ts.tvUsec.toUInt64.toNat),
   (offFlags, leBytes 4 job.flags.toNat),
   (sizeofJob + (job.cmd.length + 1), job.data),
   (offDataSize, leBytes 8 (UInt64.ofNat job.data.length).toNat)]

/-- The stores of a job are inside its block. -/
theorem Job.stores_le (p : UInt64) (job : Job) :
    ∀ w ∈ job.stores p, w.1 + w.2.length ≤ job.size := by
  simp [Job.stores, Job.size, sizeofJob, offSec, offUsec, offFlags, offData, offDataSize]
  omega

theorem Job.stores_apart (p : UInt64) (job : Job) : (job.stores p).Pairwise Apart := by
  simp [Job.stores, Apart, sizeofJob, offSec, offUsec, offFlags, offData, offDataSize]
  omega

/-- The first `n` stores are read back. -/
theorem Job.load_stores (hsize : job.size < 2 ^ 64) (n : ℕ) {w : ℕ × List UInt8}
    (hw : w ∈ (job.stores p).take n) :
    load (storeAll m p ((job.stores p).take n)) (shift p w.1) w.2.length = w.2 := by
  refine load_storeAll m p ?_ ((job.stores_apart p).sublist (List.take_sublist n _)) hw
  intro v hv
  have := job.stores_le p v (List.mem_of_mem_take hv)
  omega

/-- A word among the first `n` stores is read back. -/
theorem Job.load64_stores (hsize : job.size < 2 ^ 64) (n : ℕ) {o : ℕ} {v : UInt64}
    (hw : (o, leBytes 8 v.toNat) ∈ (job.stores p).take n) :
    load64 (storeAll m p ((job.stores p).take n)) (shift p o) = v := by
  refine load64_of_load ?_
  have h := Job.load_stores (m := m) hsize n hw
  rwa [length_leBytes] at h

/-- `cmdmgrJobPrepare` stores the parts of the block where they belong: the pointers it goes
    through are those it has just computed. -/
theorem jobPrepare_eq (hsize : job.size < 2 ^ 64) :
    jobPrepare m p job.cmd job.data job.ts job.flags = storeAll m p (job.stores p) := by
  -- each pointer is read back after the stores that have been made until then
  have hcmd₁ : load64 (storeAll m p ((job.stores p).take 1)) (shift p 0) = shift p sizeofJob :=
    Job.load64_stores hsize 1 (by simp [Job.stores])
  have hcmd₂ : load64 (storeAll m p ((job.stores p).take 2)) (shift p 0) = shift p sizeofJob :=
    Job.load64_stores hsize 2 (by simp [Job.stores])
  have hdata : load64 (storeAll m p ((job.stores p).take 6)) (shift p offData) =
      shift p (sizeofJob + (job.cmd.length + 1)) :=
    Job.load64_stores hsize 6 (by simp [Job.stores])
  rw [shift_zero] at hcmd₁ hcmd₂
  have hinit : jobStructInitialize m p job.cmd = storeAll m p ((job.stores p).take 2) := by
    show store64 (store64 m p _) _ (shift (load64 (store64 m p (shift p sizeofJob)) p) _) = _
    rw [load64_store64, shift_shift]
    simp only [Job.stores, storeAll, List.take, List.foldl, shift_zero, store64]
  unfold jobPrepare
  rw [hinit]
  dsimp only
  rw [hcmd₂]
  have hsix : store (store64 (store64 (store (storeAll m p ((job.stores p).take 2))
      (shift p sizeofJob) (job.cmd ++ [0])) (shift p offSec) job.ts.tvSec.toUInt64)
      (shift p offUsec) job.ts.tvUsec.toUInt64) (shift p offFlags) (leBytes 4 job.flags.toNat) =
      storeAll m p ((job.stores p).take 6) := by
    simp only [Job.stores, storeAll, List.take, List.foldl, store64]
  rw [hsix, hdata]
  simp only [Job.stores, storeAll, List.take, List.foldl, store64]

/-- **Building a job.**  `cmdmgrJobPrepare` makes the block of the job. -/
theorem at_jobPrepare (m : Mem) (p : UInt64) (hsize : job.size < 2 ^ 64) :
    job.At (jobPrepare m p job.cmd job.data job.ts job.flags) p := by
  have hall : (job.stores p).take 8 = job.stores p := rfl
  -- no store overlaps another, so after all of them each part is still there
  have hword : ∀ {o v}, (o, leBytes 8 (v : UInt64).toNat) ∈ job.stores p →
      load64 (storeAll m p (job.stores p)) (shift p o) = v := by
    intro o v hw
    have h := Job.load64_stores (m := m) (v := v) hsize 8 (by rwa [hall])
    rwa [hall] at h
  have hbytes : ∀ {w}, w ∈ job.stores p →
      load (storeAll m p (job.stores p)) (shift p w.1) w.2.length = w.2 := by
    intro w hw
    have h := Job.load_stores (m := m) hsize 8 (by rwa [hall])
    rwa [hall] at h
  rw [jobPrepare_eq hsize]
  have hcmd : load64 (storeAll m p (job.stores p)) (shift p 0) = shift p sizeofJob :=
    hword (by simp [Job.stores])
  have hname : load (storeAll m p (job.stores p)) (shift p sizeofJob) (job.cmd ++ [0]).length =
      job.cmd ++ [0] := hbytes (w := (sizeofJob, job.cmd ++ [0])) (by simp [Job.stores])
  rw [shift_zero] at hcmd
  rw [List.length_append, List.length_singleton] at hname
  exact {
    size_lt := hsize
    sec := hword (by simp [Job.stores])
    usec := hword (by simp [Job.stores])
    dataSize := hword (by simp [Job.stores])
    name := hname
    data := hbytes (w := (sizeofJob + (job.cmd.length + 1), job.data)) (by simp [Job.stores])
    cmdPtr := hcmd
    dataPtr := hword (by simp [Job.stores]) }

/-- **Copying a job.**  A copy of the block at another address has the same body; its pointers
    still point into the original. -/
theorem Job.Body.copy (h : job.Body m p) (m' : Mem) (q : UInt64) :
    job.Body (store m' q (load m p job.size)) q := by
  have hle := h.size_lt
  have hcopy : ∀ {o k}, o + k ≤ job.size →
      load (store m' q (load m p job.size)) (shift q o) k = load m (shift p o) k :=
    fun ho => load_copied m m' p q ho hle.le
  have hfields : offDataSize + 8 ≤ job.size := by
    unfold Job.size offDataSize sizeofJob
    omega
  exact {
    size_lt := hle
    sec := (load64_congr (hcopy (le_trans (by decide) hfields))).trans h.sec
    usec := (load64_congr (hcopy (le_trans (by decide) hfields))).trans h.usec
    dataSize := (load64_congr (hcopy hfields)).trans h.dataSize
    name := (hcopy (by unfold Job.size; omega)).trans h.name
    data := (hcopy (by unfold Job.size; omega)).trans h.data }

/-- **Linking a job.**  `i_cmdmgrJobStructFormat` computes the pointers for the block's address. -/
theorem Job.Body.format (h : job.Body m p) (hf : job.cmd.length < fuel) :
    ∃ m', jobStructFormat fuel m p = some m' ∧ job.At m' p := by
  have hle := h.size_lt
  have hsz : job.size = sizeofJob + (job.cmd.length + 1) + job.data.length := rfl
  -- the body is kept by the two stores, at offsets 0 and 32
  have hkeep : ∀ (m : Mem) (v : UInt64), job.Body m p →
      job.Body (store64 m (shift p 0) v) p ∧ job.Body (store64 m (shift p offData) v) p := by
    intro m v hb
    have hframe : ∀ {o o' k}, o' + k ≤ job.size → o + 8 ≤ job.size → (o' + k ≤ o ∨ o + 8 ≤ o') →
        load (store64 m (shift p o) v) (shift p o') k = load m (shift p o') k :=
      fun ho' ho hd => load_store64_of_disjoint m p v (by omega) (by omega) hd
    have hbody : ∀ o, o = 0 ∨ o = offData → job.Body (store64 m (shift p o) v) p := by
      intro o ho
      unfold sizeofJob at hsz
      unfold offData at ho
      exact {
        size_lt := hle
        sec := (load64_congr (hframe (by unfold offSec; omega) (by omega)
          (by unfold offSec; omega))).trans hb.sec
        usec := (load64_congr (hframe (by unfold offUsec; omega) (by omega)
          (by unfold offUsec; omega))).trans hb.usec
        dataSize := (load64_congr (hframe (by unfold offDataSize; omega) (by omega)
          (by unfold offDataSize; omega))).trans hb.dataSize
        name := (hframe (by unfold sizeofJob; omega) (by omega)
          (by unfold sizeofJob; omega)).trans hb.name
        data := (hframe (by unfold sizeofJob; omega) (by omega)
          (by unfold sizeofJob; omega)).trans hb.data }
    exact ⟨hbody 0 (Or.inl rfl), hbody offData (Or.inr rfl)⟩
  have hb₁ := (hkeep m (shift p sizeofJob) h).1
  rw [shift_zero] at hb₁
  have hcmd : load64 (store64 m p (shift p sizeofJob)) p = shift p sizeofJob :=
    load64_store64 m p _
  refine ⟨store64 (store64 m p (shift p sizeofJob)) (shift p offData)
    (shift p (sizeofJob + (job.cmd.length + 1))), ?_, ?_⟩
  · unfold jobStructFormat
    dsimp only
    rw [hcmd, hb₁.strlen_eq hf, Option.map_some, shift_shift]
  · have hb₂ := (hkeep _ (shift p (sizeofJob + (job.cmd.length + 1))) hb₁).2
    have hframe : load (store64 (store64 m p (shift p sizeofJob)) (shift p offData)
        (shift p (sizeofJob + (job.cmd.length + 1)))) (shift p 0) 8 =
        load (store64 m p (shift p sizeofJob)) (shift p 0) 8 :=
      load_store64_of_disjoint _ p _ (by omega) (by decide) (Or.inl (by decide))
    rw [shift_zero] at hframe
    exact { hb₂ with
      cmdPtr := (load64_congr hframe).trans hcmd
      dataPtr := load64_store64 _ _ _ }

/-! ### Asynchronous and synchronous execution -/

/-- A job that is sent is given to `queue_write` as the bytes of its block. -/
theorem Job.At.async (h : job.At m p) (hf : job.cmd.length < fuel) (env : Env)
    {queueType : JobQueueType} {cap : ℕ} (hq : queueSize queueType = some cap)
    (queueWrite : List UInt8 → ℤ) :
    cmdmgrJobExec fuel env m p .asynchronous queueType true queueWrite =
      some ⟨if queueWrite (load m p job.size) > 0 ∧
          UInt64.ofInt (queueWrite (load m p job.size)) = UInt64.ofNat job.size
        then .success else .unsuccess, some (load m p job.size), none, true⟩ := by
  have hsize : (UInt64.ofNat job.size).toNat = job.size := by
    rw [UInt64.toNat_ofNat', Nat.mod_eq_of_lt h.size_lt]
  simp only [cmdmgrJobExec, h.queueEntrySize_eq hf, Option.map_some, hq, hsize, if_true]

/-- A copy of the block in the executor's buffer is executed as the job. -/
theorem Job.Body.executor (h : job.Body m p) (hf : job.cmd.length < fuel) (env : Env) (m₂ : Mem)
    (buffer : UInt64) {ret : ℤ} (hret : 0 < ret) :
    executorJob fuel env m₂ buffer ⟨some (load m p job.size), ret⟩ = some (some (job.run env)) := by
  obtain ⟨m₃, hformat, hat⟩ := (h.copy m₂ buffer).format hf
  simp only [executorJob, gt_iff_lt, hret, if_true, hformat, Option.bind_some, hat.exec hf,
    Option.map_some]

/-- The size of a block below 2 GiB is positive as an `int`. -/
theorem toInt_pos {n : ℕ} (h0 : 0 < n) (hn : n < 2 ^ 31) : 0 < toInt n := by
  rw [(Queue.toInt_eq_self_iff n).mpr hn]
  exact_mod_cast h0

theorem Job.size_pos (job : Job) : 0 < job.size := by
  unfold Job.size
  omega

variable {ι : Type} [DecidableEq ι] {cap : ℕ} {s : Queue.State ι}
  {h : List (Queue.State ι × ι × Queue.Act)}

/-- **Asynchronous execution is synchronous execution.**  A job that has been prepared and fits
    into the executor's buffer is sent as the bytes of its block.  In every run of the queue, by
    any number of threads and with any other messages, the read that completes at the position at
    which these bytes were accepted makes the executor, whatever the address and the contents of
    its buffer, do what the synchronous mode does: look up the job's command and call its handler
    with the job's time, data and size. -/
theorem async_eq_sync (hcap : cap < 2 ^ 64) (hr : Run Queue.step (queueCreate ι cap) h s)
    (job : Job) (hfits : job.size ≤ executorBuffer)
    {m m' : Mem} {malloc : Option UInt64} {pjob : UInt64}
    (hprep : cmdmgrJobPrepare m malloc job.cmd job.data job.ts job.flags =
      (.success, m', some pjob)) {fuel : ℕ} (hf : job.cmd.length < fuel) (env : Env) :
    (∀ queueType queueWrite, (queueSize queueType).isSome →
      (cmdmgrJobExec fuel env m' pjob .asynchronous queueType true queueWrite).map
        JobResult.written = some (some (load m' pjob job.size))) ∧
    (∀ queueType registered queueWrite,
      cmdmgrJobExec fuel env m' pjob .synchronous queueType registered queueWrite =
        some ⟨(job.run env).status, none, some (job.run env), true⟩) ∧
    ∀ (i : ℕ) (e : Entry) (payload : List UInt8) (r : ReadReturn),
      s.q.accepted[i]? = some e → e.buf = load m' pjob job.size →
      s.q.completed[i]? = some payload → r ∈ s.q.readReturns → r.payload = some payload →
      ∀ m₂ buffer, executorJob fuel env m₂ buffer r = some (some (job.run env)) := by
  have hlt : job.size < 2 ^ 31 := by
    unfold executorBuffer at hfits
    omega
  have hat : job.At m' pjob := by
    cases malloc with
    | none => cases hprep
    | some p =>
      simp only [cmdmgrJobPrepare, Prod.mk.injEq, Option.some.injEq, true_and] at hprep
      obtain ⟨rfl, rfl⟩ := hprep
      exact at_jobPrepare m p (by omega)
  refine ⟨?_, ?_, ?_⟩
  · intro queueType queueWrite hq
    obtain ⟨c, hc⟩ := Option.isSome_iff_exists.mp hq
    rw [hat.async hf env hc, Option.map_some]
  · intro queueType registered queueWrite
    simp only [cmdmgrJobExec, hat.exec hf env, Option.map_some]
  · intro i e payload r hacc hbuf hcomp hr' hpay m₂ buffer
    have hg := Queue.good_run hcap hr
    -- the read at this position has copied the bytes that were accepted
    have hsame : payload = load m' pjob job.size := by
      have hpre := hg.shows.completed_prefix
      have hget := (List.prefix_iff_getElem?.mp hpre) i
        (List.getElem?_eq_some_iff.mp hcomp).1
      rw [List.getElem?_map, hacc, Option.map_some, hbuf, Option.some.injEq] at hget
      rw [hget]
      exact (List.getElem?_eq_some_iff.mp hcomp).2.symm
    have hret := hg.returned r hr'
    unfold ReadReturn.Honest at hret
    rw [hpay] at hret
    have hpos : 0 < r.ret := by
      rw [hret.2, hsame, length_load]
      exact toInt_pos job.size_pos hlt
    have hrr : r = ⟨some (load m' pjob job.size), r.ret⟩ := by
      rw [← hsame, ← hpay]
    rw [hrr]
    exact hat.toBody.executor hf env m₂ buffer hpos

/-- A job of a one-letter command with some data. -/
def sampleJob (data : List UInt8) : Job := ⟨[65], data, ⟨0, 0⟩, 0, by decide⟩

/-- The sizes of the sample jobs. -/
theorem size_sampleJob (data : List UInt8) : (sampleJob data).size = 50 + data.length := by
  unfold sampleJob Job.size sizeofJob
  simp

/-- A running kernel that knows the command, with a handler at 4096. -/
def sampleEnv : Env :=
  ⟨SVC_KERNEL_STATUS_RUNNING, 0, .ok, [⟨.text [65], .null, .null, .null, .int 4096, .null, .null⟩],
    fun _ => 0⟩

/-- A job whose data contain a zero byte is written, read, and executed at another address. -/
theorem async_eq_sync_two_bytes : ∃ h s r,
    Run Queue.step (queueCreate Unit (1024 * 1024)) h s ∧ r ∈ s.q.readReturns ∧
      executorJob 2 sampleEnv (fun _ => 1) 8192 r =
        some (some ⟨some [65], some ⟨4096, ⟨0, 0⟩, [0, 7], 2⟩, .success⟩) := by
  let job := sampleJob [0, 7]
  let m' := jobPrepare (fun _ => 0) 64 job.cmd job.data job.ts job.flags
  let e : Entry := ⟨load m' 64 job.size, 0⟩
  have hlen : e.buf.length = 52 := length_load m' 64 job.size
  have hcap : 1024 * 1024 < 2 ^ 64 := by decide
  obtain ⟨h, s, hr, -, hcomp, hmem⟩ :=
    Queue.solo_roundtrip hcap (show headerSize + e.buf.length < _ by rw [hlen]; decide)
  -- the only message read is the first one accepted
  obtain ⟨rest, hpre⟩ := (Queue.good_run hcap hr).shows.completed_prefix
  rw [hcomp, List.singleton_append] at hpre
  obtain ⟨e', acc, hacc, hbuf, -⟩ := List.map_eq_cons_iff.mp hpre.symm
  refine ⟨h, s, _, hr, hmem, ?_⟩
  have hrun : job.run sampleEnv = ⟨some [65], some ⟨4096, ⟨0, 0⟩, [0, 7], 2⟩, .success⟩ := by
    decide
  have hprep : cmdmgrJobPrepare (fun _ => 0) (some 64) job.cmd job.data job.ts job.flags =
      (.success, m', some 64) := rfl
  have hsmall : job.size ≤ executorBuffer := by decide
  have hfuel : job.cmd.length < 2 := by decide
  rw [← hrun]
  refine (async_eq_sync hcap hr job hsmall hprep hfuel sampleEnv).2.2 0 e' e.buf _ ?_ hbuf
    ?_ hmem rfl _ _
  · rw [hacc, List.getElem?_cons_zero]
  · rw [hcomp, List.getElem?_cons_zero]

/-! ### The executor's buffer -/

/-- `(size_t)ret` for a result that is not negative. -/
theorem toNat_ofInt {ret : ℤ} (h0 : 0 ≤ ret) (hret : ret < 2 ^ 64) :
    (UInt64.ofInt ret).toNat = ret.toNat := by
  rw [UInt64.ofInt, UInt64.toNat_ofNat', Int.emod_eq_of_lt h0 hret]
  exact Nat.mod_eq_of_lt (by omega)

/-- `(size_t)ret` for a result that is a size. -/
theorem ofInt_natCast {n : ℕ} (hn : n < 2 ^ 64) : UInt64.ofInt (n : ℤ) = UInt64.ofNat n := by
  rw [← UInt64.toNat_inj, toNat_ofInt (by omega) (by omega), Int.toNat_natCast,
    UInt64.toNat_ofNat', Nat.mod_eq_of_lt hn]

/-- A job whose block fits into the queue and whose size is an `int` can be sent. -/
theorem Job.At.sent (hat : job.At m p) (hf : job.cmd.length < fuel) (env : Env)
    {queueType : JobQueueType} (hq : queueSize queueType = some cap) (hcap : cap < 2 ^ 64)
    (hfit : headerSize + job.size < cap) (hint : job.size < 2 ^ 31) :
    ∃ h s, Run Queue.step (queueCreate Unit cap) h s ∧
      (∃ e ∈ s.q.accepted, e.buf = load m p job.size ∧ headerLen e.header = job.size) ∧
      (load m p job.size, toInt job.size) ∈ s.q.writeReturns ∧
      cmdmgrJobExec fuel env m p .asynchronous queueType true (fun bytes => toInt bytes.length) =
        some ⟨.success, some (load m p job.size), none, true⟩ := by
  let e : Entry := ⟨load m p job.size, 0⟩
  have hlen : e.buf.length = job.size := length_load m p job.size
  -- a call of `queue_write` on a fresh queue has room and does not wait
  obtain ⟨h, s, hr, -, -, -, ⟨hacc, -, -⟩, hmem⟩ :=
    Queue.reach_write hcap (show headerSize + e.buf.length < cap by rwa [hlen])
      (queueCreate Unit cap) (Queue.good_queueCreate cap) rfl ⟨rfl, rfl, rfl⟩
  rw [hlen] at hmem
  have hheader : headerLen e.header = job.size := by
    rw [Queue.headerLen_header e (by omega), hlen]
  refine ⟨h, s, hr, ⟨e, by rw [hacc]; simp, rfl, hheader⟩, hmem, ?_⟩
  have hret : toInt job.size = job.size := (Queue.toInt_eq_self_iff _).mpr hint
  -- the comparison is one of `size_t` values
  rw [hat.async hf env hq, length_load, hret,
    if_pos ⟨by exact_mod_cast job.size_pos, ofInt_natCast hat.size_lt⟩]

/-- **Accepted jobs and the executor's buffer.**  When `cmdmgrJobExec` in asynchronous mode
    returns success, with the result that `queue_write` gave in a run of the chosen queue, the
    block is among the accepted messages, and the number of bytes that `queue_read` will copy is
    `queueEntrySize`.  They fit into the executor's buffer exactly if the queue is the one for
    long operations or `queueEntrySize` is at most the size of the buffer: the queue for short
    operations accepts more. -/
theorem accepted_job_fits {queueType : JobQueueType} (hq : queueSize queueType = some cap)
    (hr : Run Queue.step (queueCreate ι cap) h s) {env : Env} {registered : Bool}
    {queueWrite : List UInt8 → ℤ} {x : JobResult}
    (hx : cmdmgrJobExec fuel env m p .asynchronous queueType registered queueWrite = some x)
    (hret : ∀ bytes, x.written = some bytes → (bytes, queueWrite bytes) ∈ s.q.writeReturns)
    (hs : x.status = .success) :
    ∃ size e, queueEntrySize fuel m p = some size ∧ e ∈ s.q.accepted ∧
      x.written = some e.buf ∧ headerLen e.header = size.toNat ∧
      (headerLen e.header ≤ executorBuffer ↔
        queueType = .longOps ∨ size.toNat ≤ executorBuffer) := by
  simp only [cmdmgrJobExec, hq, Option.map_eq_some_iff] at hx
  obtain ⟨size, hsize, hx⟩ := hx
  split at hx
  case isFalse =>
    subst hx
    cases hs
  have hw : x.written = some (load m p size.toNat) := by rw [← hx]
  have hok : queueWrite (load m p size.toNat) > 0 ∧
      UInt64.ofInt (queueWrite (load m p size.toNat)) = size := by
    rw [← hx] at hs
    by_contra hno
    rw [if_neg hno] at hs
    cases hs
  obtain ⟨hpos, hof⟩ := hok
  -- a positive result means that the block has been stored after the size test
  have hsent := (Queue.sent_run hr).returned _ (hret _ hw)
  rcases hsent with hneg | ⟨hval, e, he, hbuf, hentry⟩
  · exact absurd hneg (by simpa using hpos.le)
  dsimp only at hval hbuf
  rw [length_load] at hval
  have hlen : e.buf.length = size.toNat := by rw [hbuf, length_load]
  have hlt := size.toNat_lt
  have hheader : headerLen e.header = size.toNat := by
    rw [Queue.headerLen_header e (by omega), hlen]
  refine ⟨size, e, hsize, he, by rw [hw, hbuf], hheader, ?_⟩
  rw [hheader]
  constructor
  · exact Or.inr
  · rintro (rfl | hle)
    · -- the queue for long operations is as large as the buffer
      have hcap : cap = 1024 * 1024 := (Option.some.inj hq).symm
      have hint : size.toNat < 2 ^ 31 := by
        have hrange : toInt size.toNat < 2 ^ 31 := by
          rw [Queue.toInt_eq]
          split <;> omega
        rw [hval] at hof hpos
        have hnat := toNat_ofInt hpos.le (by omega)
        rw [hof] at hnat
        omega
      rw [Queue.entrySize_eq (by rw [hlen]; unfold headerSize; omega), hlen, hcap] at hentry
      unfold executorBuffer
      omega
    · exact hle

/-- A small job on the queue for long operations. -/
theorem accepted_job_fits_empty :
    ∃ (h : List (Queue.State Unit × Unit × Queue.Act)) (s : _) (e : Entry),
    Run Queue.step (queueCreate Unit (1024 * 1024)) h s ∧ e ∈ s.q.accepted ∧
      headerLen e.header = 50 ∧ headerLen e.header ≤ executorBuffer := by
  let job := sampleJob []
  have hsize : job.size = 50 := size_sampleJob []
  have hat : job.At (jobPrepare (fun _ => 0) 64 job.cmd job.data job.ts job.flags) 64 :=
    at_jobPrepare _ _ (by rw [hsize]; decide)
  have hf : job.cmd.length < 2 := by decide
  have hq : queueSize .longOps = some (1024 * 1024) := rfl
  -- an empty queue takes the job
  obtain ⟨h, s, hr, -, hmem, hx⟩ := hat.sent hf sampleEnv hq (by decide)
    (by rw [hsize]; decide) (by rw [hsize]; decide)
  obtain ⟨size, e, hs, he, -, hlen, hiff⟩ := accepted_job_fits hq hr hx
    (fun bytes hb => by
      rw [← Option.some.inj hb, length_load]
      exact hmem) rfl
  rw [hat.queueEntrySize_eq hf, Option.some.injEq, hsize] at hs
  refine ⟨h, s, e, hr, he, ?_, hiff.mpr (Or.inl rfl)⟩
  rw [hlen, ← hs]
  decide

/-- A job of two mebibytes for the queue of short operations is accepted, and `queue_read` will
    copy more bytes than the executor's buffer has. -/
theorem accepted_job_overflows : ∃ (h : List (Queue.State Unit × Unit × Queue.Act)) (s : _)
    (m : Mem) (pjob : UInt64) (bytes : List UInt8),
    queueSize .shortOps = some (1024 * 1024 * 1024) ∧
      Run Queue.step (queueCreate Unit (1024 * 1024 * 1024)) h s ∧
      (bytes, 2097202) ∈ s.q.writeReturns ∧
      cmdmgrJobExec 2 sampleEnv m pjob .asynchronous .shortOps true (fun b => toInt b.length) =
        some ⟨.success, some bytes, none, true⟩ ∧
      ∃ e ∈ s.q.accepted, e.buf = bytes ∧ headerLen e.header = 2097202 ∧
        ¬ headerLen e.header ≤ executorBuffer := by
  -- only the length of the data matters, so they stay a variable
  obtain ⟨data, hdata⟩ : ∃ data : List UInt8, data.length = 2097152 :=
    ⟨List.replicate 2097152 0, List.length_replicate⟩
  have hsize : (sampleJob data).size = 2097202 := by rw [size_sampleJob, hdata]
  have hq : queueSize .shortOps = some (1024 * 1024 * 1024) := rfl
  have hat := at_jobPrepare (fun _ => 0) 64 (show (sampleJob data).size < 2 ^ 64 by omega)
  have hf : (sampleJob data).cmd.length < 2 := by
    show 1 < 2
    decide
  obtain ⟨h, s, hr, ⟨e, he, hbuf, hheader⟩, hmem, hx⟩ := hat.sent hf sampleEnv hq (by decide)
    (by rw [hsize]; decide) (by omega)
  rw [hsize] at hheader
  have hint : toInt (sampleJob data).size = 2097202 := by
    rw [(Queue.toInt_eq_self_iff _).mpr (by omega), hsize]
    rfl
  rw [hint] at hmem
  refine ⟨h, s, _, 64, _, hq, hr, hmem, hx, e, he, hbuf, hheader, ?_⟩
  rw [hheader]
  decide

end Niuchacz.CmdManager
