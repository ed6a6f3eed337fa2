import Niuchacz.Lib.Bytes
import Niuchacz.Lib.CircularBuffer
import Niuchacz.Lib.Transition

namespace Niuchacz.Queue

open Lib.Bytes Lib.CircularBuffer

/-!
# The blocking message queue (`algorithms/queue/queue.c`)

The queue is a ring of bytes with two cursors.  A producer holds `_writeMutex` while it
copies a 16-byte header and the payload behind `_head`, a consumer holds `_readMutex` while
it copies them back from `_tail`; the two sides share nothing but the counter
`_stats_MemUsageCurrent`.  This file is the embedding:

* `QueueT`, `State` — the fields of `queue_t`, and the queue together with the program
  counters of any number of threads.
* `Pc` — one constructor per step of each function: a step is one mutex operation, one
  test, one byte copied, one atomic update or one broadcast.
* `outcome`, `step` — what a thread does next; the label also resolves what the program does
  not decide (which function an idle thread calls, spurious wake-ups and timeouts).

Sizes are `size_t`: natural numbers with every operation reduced modulo `2 ^ 64`.
-/

/-! ### Sizes, checksums and headers -/

/-- `size_t` addition. -/
@[irreducible] def sizeAdd (a b : ℕ) : ℕ := (a + b) % 2 ^ 64

/-- `size_t` subtraction of two `size_t` values: it wraps below zero. -/
@[irreducible] def sizeSub (a b : ℕ) : ℕ := if b ≤ a then a - b else 2 ^ 64 + a - b

/-- The value a `size_t` has after conversion to `int`. -/
def toInt (n : ℕ) : ℤ := Int.bmod n (2 ^ 32)

/-- One bit of CRC-32C (reflected polynomial `0x82f63b78`). -/
def crcBit (c : BitVec 32) : BitVec 32 :=
  if c.getLsbD 0 then (c >>> 1) ^^^ 0x82f63b78#32 else c >>> 1

/-- `_mm_crc32_u8`: one byte of CRC-32C. -/
def mmCrc32U8 (crc : BitVec 32) (b : UInt8) : BitVec 32 :=
  crcBit^[8] (crc ^^^ b.toBitVec.setWidth 32)

/-- `sse42_crc32`. -/
def sse42Crc32 (bytes : List UInt8) : BitVec 32 :=
  bytes.foldl mmCrc32U8 0xffffffff#32

/-- `sizeof(queue_entry_t)`: `_size` (8 bytes), `_crc32` (4 bytes), 4 bytes of padding. -/
def headerSize : ℕ := 16

/-- What one `queue_write` stores: the caller's bytes, and whatever the padding of its
    `queue_entry_t header` happens to contain. -/
structure Entry where
  buf : List UInt8
  pad : UInt32
  deriving DecidableEq

/-- The memory image of `header` after `queue_write` has prepared it. -/
def Entry.header (e : Entry) : List UInt8 :=
  leBytes 8 e.buf.length ++ leBytes 4 (sse42Crc32 e.buf).toNat ++ leBytes 4 e.pad.toNat

/-- The bytes an entry occupies in the ring. -/
def Entry.encode (e : Entry) : List UInt8 := e.header ++ e.buf

/-- `entrySize`, as `queue_write` computes it. -/
def Entry.entrySize (e : Entry) : ℕ := sizeAdd e.buf.length headerSize

/-- Whether `sse42_crc32` gets to the end of the caller's buffer.  A buffer of `2 ^ 64 - 16` bytes
    or more would take in all addresses but 16, and with them the page of address 0, which is
    never mapped. -/
@[irreducible] def Entry.readable (e : Entry) : Bool := e.buf.length < 2 ^ 64 - 16

/-- `header._size` of a header image. -/
def headerLen (hdr : List UInt8) : ℕ := leNat (hdr.take 8)

/-- `header._crc32` of a header image. -/
def headerCrc (hdr : List UInt8) : ℕ := leNat ((hdr.drop 8).take 4)

def QUEUE_RET_ERROR : ℤ := -1
def QUEUE_RET_TIMEOUT : ℤ := -2
def QUEUE_RET_DESTROYING : ℤ := -3

/-! ### The ring -/

/-- The bytes between `_leftborder` and `_rightborder` with the two cursors, as offsets. -/
structure Ring where
  mem : ℕ → UInt8
  head : ℕ
  tail : ℕ

/-- One iteration of the loop of `i_queue_write`. -/
def Ring.putByte (cap : ℕ) (r : Ring) (b : UInt8) : Ring :=
  { r with mem := Function.update r.mem r.head b, head := advance cap r.head }

/-- One iteration of the loop of `i_queue_read`: the byte read is `r.mem r.tail`. -/
def Ring.skipByte (cap : ℕ) (r : Ring) : Ring :=
  { r with tail := advance cap r.tail }

/-! ### Program counters -/

/-- The two sides of the queue; each has a mutex, a condition variable and a counter of
    registered threads. -/
inductive Side where
  | read
  | write
  deriving DecidableEq

/-- The steps of `queue_write`.  `crc` prepares the header, for which `sse42_crc32` reads the whole
    buffer; `fault` is where it ends if it cannot.  `wait` is the call of `pthread_cond_wait` after
    the space test has failed, `awake` the tests after it has returned; `bail` is an unlock
    followed by the return of an error code. -/
inductive WPc where
  | entry | crc | fault | lock | test | wait | asleep
  | woken (timedOut : Bool) | awake (timedOut : Bool) | bail (ret : ℤ)
  | header (i : ℕ) | data (i : ℕ)
  | addEntries | testEntriesMax (n : ℕ) | storeEntriesMax (n : ℕ)
  | addUsage | testUsageMax (n : ℕ) | storeUsageMax (n : ℕ)
  | unlock | broadcast
  deriving DecidableEq

/-- The steps of `queue_read`; `hdr` and `buf` are the bytes copied so far into the local
    `header` and into the caller's buffer. -/
inductive RPc where
  | lock | test | wait | asleep
  | woken (timedOut : Bool) | awake (timedOut : Bool) | bail (ret : ℤ)
  | header (hdr : List UInt8) | data (hdr buf : List UInt8)
  | subEntries (hdr buf : List UInt8) | subUsage (hdr buf : List UInt8)
  | unlock (hdr buf : List UInt8) | broadcast (hdr buf : List UInt8)
  | ret (hdr buf : List UInt8)
  deriving DecidableEq

/-- The steps of `queue_consumer_new` and `queue_producer_new`. -/
inductive NPc where
  | lock | test | inc | unlock (success : Bool)
  deriving DecidableEq

/-- The steps of `queue_consumer_free` and `queue_producer_free`. -/
inductive FPc where
  | lock | dec | unlock | broadcast
  deriving DecidableEq

/-- The steps of `queue_destroy`, which waits first on the write side and then on the read
    side. -/
inductive DPc where
  | flag | lock (k : Side) | test (k : Side) | wait (k : Side) | asleep (k : Side)
  | woken (k : Side) | unlock (k : Side) | free
  deriving DecidableEq

/-- Where a thread is; `timed` says whether the call was given a timeout. -/
inductive Pc where
  | idle
  | write (e : Entry) (timed : Bool) (p : WPc)
  | read (timed : Bool) (p : RPc)
  | new (k : Side) (p : NPc)
  | free (k : Side) (p : FPc)
  | destroy (p : DPc)
  deriving DecidableEq

/-- What a finished `queue_read` gave its caller: the bytes copied into the buffer, if it
    got that far, and the value returned. -/
structure ReadReturn where
  payload : Option (List UInt8)
  ret : ℤ
  deriving DecidableEq

/-! ### States -/

/-- The fields of `queue_t`.  The last four are bookkeeping: the entries stored, in the order
    of `_writeMutex`; the payloads read, in the order of `_readMutex`; and what the finished
    calls returned. -/
structure QueueT (ι : Type) where
  ring : Ring
  entriesCurrent : ℕ
  entriesMax : ℕ
  memUsageCurrent : ℕ
  memUsageMax : ℕ
  memSizeCurrent : ℕ
  readMutex : Option ι
  writeMutex : Option ι
  consumers : ℤ
  producers : ℤ
  isActive : Bool
  freed : Bool
  accepted : List Entry
  completed : List (List UInt8)
  readReturns : List ReadReturn
  writeReturns : List (List UInt8 × ℤ)

/-- The queue and the threads that use it. -/
structure State (ι : Type) where
  q : QueueT ι
  pc : ι → Pc

/-- `queue_create`: an empty zeroed ring of `size` bytes, nobody registered, all threads
    outside the queue's functions. -/
def queueCreate (ι : Type) (size : ℕ) : State ι where
  q :=
    { ring := { mem := fun _ => 0, head := 0, tail := 0 }
      entriesCurrent := 0
      entriesMax := 0
      memUsageCurrent := 0
      memUsageMax := 0
      memSizeCurrent := size
      readMutex := none
      writeMutex := none
      consumers := 0
      producers := 0
      isActive := true
      freed := false
      accepted := []
      completed := []
      readReturns := []
      writeReturns := [] }
  pc := fun _ => .idle

section
variable {ι : Type}

/-- The mutex of a side. -/
def QueueT.mutex (q : QueueT ι) : Side → Option ι
  | .read => q.readMutex
  | .write => q.writeMutex

/-- Set the owner of a side's mutex. -/
def QueueT.setMutex (q : QueueT ι) (k : Side) (o : Option ι) : QueueT ι :=
  match k with
  | .read => { q with readMutex := o }
  | .write => { q with writeMutex := o }

/-- `_consumers` or `_producers`. -/
def QueueT.registered (q : QueueT ι) : Side → ℤ
  | .read => q.consumers
  | .write => q.producers

/-- Add to `_consumers` or `_producers`. -/
def QueueT.addRegistered (q : QueueT ι) (k : Side) (d : ℤ) : QueueT ι :=
  match k with
  | .read => { q with consumers := q.consumers + d }
  | .write => { q with producers := q.producers + d }

/-- Note what a `queue_write` returned. -/
def QueueT.logWrite (q : QueueT ι) (buf : List UInt8) (ret : ℤ) : QueueT ι :=
  { q with writeReturns := q.writeReturns ++ [(buf, ret)] }

/-- Note what a `queue_read` returned. -/
def QueueT.logRead (q : QueueT ι) (r : ReadReturn) : QueueT ι :=
  { q with readReturns := q.readReturns ++ [r] }

/-! ### Steps

A step of a thread changes the queue and the thread's own program counter, and it may send a
broadcast on one of the two condition variables; nothing else.
-/

/-- What a step does: the queue after it, where the thread goes, and the condition variable
    it broadcasts on, if any. -/
structure Outcome (ι : Type) where
  q : QueueT ι
  pc : Pc
  signal : Option Side := none

/-- A step that sends no broadcast. -/
def goto (q : QueueT ι) (p : Pc) : Option (Outcome ι) := some { q := q, pc := p }

/-- Take the mutex of side `k` and go on at `p`; not possible while another thread has it. -/
def lockThen (q : QueueT ι) (k : Side) (t : ι) (p : Pc) : Option (Outcome ι) :=
  match q.mutex k with
  | none => goto (q.setMutex k (some t)) p
  | some _ => none

/-- The next step of `queue_write`. -/
def stepWrite (q : QueueT ι) (t : ι) (e : Entry) (timed : Bool) : WPc → Option (Outcome ι)
  | .entry =>
      if e.entrySize ≥ q.memSizeCurrent then goto (q.logWrite e.buf QUEUE_RET_ERROR) .idle
      else goto q (.write e timed .crc)
  | .crc =>
      if e.readable then goto q (.write e timed .lock)
      else goto q (.write e timed .fault)
  -- the process is killed: what other threads do from here on are runs that the code does not have
  | .fault => none
  | .lock => lockThen q .write t (.write e timed .test)
  | .test =>
      if sizeSub q.memSizeCurrent q.memUsageCurrent < e.entrySize then
        goto q (.write e timed .wait)
      else goto q (.write e timed (.header 0))
  | .wait => goto (q.setMutex .write none) (.write e timed .asleep)
  | .asleep => none
  | .woken timedOut => lockThen q .write t (.write e timed (.awake timedOut))
  | .awake timedOut =>
      if !q.isActive then goto q (.write e timed (.bail QUEUE_RET_DESTROYING))
      else if timedOut then goto q (.write e timed (.bail QUEUE_RET_TIMEOUT))
      else goto q (.write e timed .test)
  | .bail ret => goto ((q.setMutex .write none).logWrite e.buf ret) .idle
  | .header i =>
      match e.header[i]? with
      | some b =>
          goto { q with ring := q.ring.putByte q.memSizeCurrent b }
            (.write e timed (.header (i + 1)))
      | none => goto q (.write e timed (.data 0))
  | .data i =>
      match e.buf[i]? with
      | some b =>
          goto { q with ring := q.ring.putByte q.memSizeCurrent b }
            (.write e timed (.data (i + 1)))
      | none => goto q (.write e timed .addEntries)
  | .addEntries =>
      let n := sizeAdd q.entriesCurrent 1
      goto { q with entriesCurrent := n } (.write e timed (.testEntriesMax n))
  | .testEntriesMax n =>
      if n > q.entriesMax then goto q (.write e timed (.storeEntriesMax n))
      else goto q (.write e timed .addUsage)
  | .storeEntriesMax n => goto { q with entriesMax := n } (.write e timed .addUsage)
  | .addUsage =>
      let n := sizeAdd q.memUsageCurrent e.entrySize
      goto { q with memUsageCurrent := n, accepted := q.accepted ++ [e] }
        (.write e timed (.testUsageMax n))
  | .testUsageMax n =>
      if n > q.memUsageMax then goto q (.write e timed (.storeUsageMax n))
      else goto q (.write e timed .unlock)
  | .storeUsageMax n => goto { q with memUsageMax := n } (.write e timed .unlock)
  | .unlock => goto (q.setMutex .write none) (.write e timed .broadcast)
  | .broadcast =>
      some { q := q.logWrite e.buf (toInt e.buf.length), pc := .idle, signal := some .read }

/-- The value `queue_read` returns once the message has been copied and released. -/
def readResult (hdr buf : List UInt8) : ℤ :=
  if (sse42Crc32 buf).toNat ≠ headerCrc hdr then QUEUE_RET_ERROR else toInt (headerLen hdr)

/-- The next step of `queue_read`. -/
def stepRead (q : QueueT ι) (t : ι) (timed : Bool) : RPc → Option (Outcome ι)
  | .lock => lockThen q .read t (.read timed .test)
  | .test =>
      if q.memUsageCurrent = 0 then goto q (.read timed .wait)
      else goto q (.read timed (.header []))
  | .wait => goto (q.setMutex .read none) (.read timed .asleep)
  | .asleep => none
  | .woken timedOut => lockThen q .read t (.read timed (.awake timedOut))
  | .awake timedOut =>
      if !q.isActive then goto q (.read timed (.bail QUEUE_RET_DESTROYING))
      else if timedOut then goto q (.read timed (.bail QUEUE_RET_TIMEOUT))
      else goto q (.read timed .test)
  | .bail ret => goto ((q.setMutex .read none).logRead ⟨none, ret⟩) .idle
  | .header hdr =>
      if hdr.length < headerSize then
        goto { q with ring := q.ring.skipByte q.memSizeCurrent }
          (.read timed (.header (hdr ++ [q.ring.mem q.ring.tail])))
      else goto q (.read timed (.data hdr []))
  | .data hdr buf =>
      if buf.length < headerLen hdr then
        goto { q with ring := q.ring.skipByte q.memSizeCurrent }
          (.read timed (.data hdr (buf ++ [q.ring.mem q.ring.tail])))
      else goto q (.read timed (.subEntries hdr buf))
  | .subEntries hdr buf =>
      goto { q with entriesCurrent := sizeSub q.entriesCurrent 1 }
        (.read timed (.subUsage hdr buf))
  | .subUsage hdr buf =>
      let n := sizeSub q.memUsageCurrent (sizeAdd (headerLen hdr) headerSize)
      goto { q with memUsageCurrent := n } (.read timed (.unlock hdr buf))
  | .unlock hdr buf =>
      goto ({ q with completed := q.completed ++ [buf] }.setMutex .read none)
        (.read timed (.broadcast hdr buf))
  | .broadcast hdr buf =>
      some { q := q, pc := .read timed (.ret hdr buf), signal := some .write }
  | .ret hdr buf => goto (q.logRead ⟨some buf, readResult hdr buf⟩) .idle

/-- The next step of `queue_consumer_new` (`k = .read`) or `queue_producer_new`
    (`k = .write`). -/
def stepNew (q : QueueT ι) (t : ι) (k : Side) : NPc → Option (Outcome ι)
  | .lock => lockThen q k t (.new k .test)
  | .test => if q.isActive then goto q (.new k .inc) else goto q (.new k (.unlock false))
  | .inc => goto (q.addRegistered k 1) (.new k (.unlock true))
  | .unlock _ => goto (q.setMutex k none) .idle

/-- The next step of `queue_consumer_free` or `queue_producer_free`. -/
def stepFree (q : QueueT ι) (t : ι) (k : Side) : FPc → Option (Outcome ι)
  | .lock => lockThen q k t (.free k .dec)
  | .dec => goto (q.addRegistered k (-1)) (.free k .unlock)
  | .unlock => goto (q.setMutex k none) (.free k .broadcast)
  | .broadcast => some { q := q, pc := .idle, signal := some k }

/-- The next step of `queue_destroy`. -/
def stepDestroy (q : QueueT ι) (t : ι) : DPc → Option (Outcome ι)
  | .flag => goto { q with isActive := false } (.destroy (.lock .write))
  | .lock k => lockThen q k t (.destroy (.test k))
  | .test k =>
      if q.registered k > 0 then goto q (.destroy (.wait k))
      else goto q (.destroy (.unlock k))
  | .wait k => goto (q.setMutex k none) (.destroy (.asleep k))
  | .asleep _ => none
  | .woken k => lockThen q k t (.destroy (.test k))
  | .unlock k =>
      goto (q.setMutex k none) (.destroy (if k = .write then .lock .read else .free))
  | .free => goto { q with freed := true } .idle

/-- The functions of the queue. -/
inductive Call where
  | write (e : Entry) (timed : Bool)
  | read (timed : Bool)
  | new (k : Side)
  | free (k : Side)
  | destroy

/-- The first step of a call. -/
def Call.start : Call → Pc
  | .write e timed => .write e timed .entry
  | .read timed => .read timed .lock
  | .new k => .new k .lock
  | .free k => .free k .lock
  | .destroy => .destroy .flag

/-- What a thread can do: enter a function, take the next step of the function it is in, or
    return from a wait without a broadcast (a spurious wake-up, or a timeout). -/
inductive Act where
  | call (c : Call)
  | go
  | wake (timedOut : Bool)

/-- The step that the program determines for a thread `t` at `p`. -/
def stepGo (q : QueueT ι) (t : ι) : Pc → Option (Outcome ι)
  | .idle => none
  | .write e timed p => stepWrite q t e timed p
  | .read timed p => stepRead q t timed p
  | .new k p => stepNew q t k p
  | .free k p => stepFree q t k p
  | .destroy p => stepDestroy q t p

/-- A sleeping thread wakes by itself; only a timed wait can time out. -/
def stepWake (q : QueueT ι) (timedOut : Bool) : Pc → Option (Outcome ι)
  | .write e timed .asleep =>
      if timedOut && !timed then none else goto q (.write e timed (.woken timedOut))
  | .read timed .asleep =>
      if timedOut && !timed then none else goto q (.read timed (.woken timedOut))
  | .destroy (.asleep k) => if timedOut then none else goto q (.destroy (.woken k))
  | _ => none

/-- What thread `t` at `p` does when it acts by `a`.  Nothing can be done with a queue that
    has been freed. -/
def outcome (q : QueueT ι) (t : ι) (p : Pc) (a : Act) : Option (Outcome ι) :=
  if q.freed then none
  else
    match a with
    | .call c => if p = .idle then goto q c.start else none
    | .go => stepGo q t p
    | .wake timedOut => stepWake q timedOut p

/-- The effect of a broadcast on one thread: a thread asleep on the side's condition variable
    goes on to take the mutex again. -/
def Pc.wake (k : Side) : Pc → Pc
  | .write e timed .asleep => .write e timed (if k = .write then .woken false else .asleep)
  | .read timed .asleep => .read timed (if k = .read then .woken false else .asleep)
  | .destroy (.asleep k') => .destroy (if k = k' then .woken k' else .asleep k')
  | p => p

/-- The effect of a step's signal on a thread that does not move. -/
def Pc.signalled : Option Side → Pc → Pc
  | none, p => p
  | some k, p => p.wake k

variable [DecidableEq ι]

/-- The state after thread `t` has taken a step with outcome `o`. -/
def State.apply (s : State ι) (t : ι) (o : Outcome ι) : State ι where
  q := o.q
  pc := Function.update (fun u => (s.pc u).signalled o.signal) t o.pc

/-- One step of the system: thread `l.1` acts by `l.2`. -/
def step (s : State ι) (l : ι × Act) : Option (State ι) :=
  (outcome s.q l.1 (s.pc l.1) l.2).map (s.apply l.1)

end

end Niuchacz.Queue
