import Niuchacz.Capture
import Niuchacz.CmdManager.Pipeline

namespace Niuchacz.Capture

open CmdManager Lib.Memory Lib.Transition SvcKernel
open Queue (Entry queueCreate Carries ReadBy WrittenBy)

/-!
# From the network to the analysis

The capture thread (`pcap_thread_routine`) is the only producer of the queue for short operations,
and the executor of that queue its only consumer.

* `Round.written`, `Round.enqueued` — what a round of the capture loop gives to `queue_write`, and
  the packet that it has enqueued.
* `enq_loop` — the counter `PCAP Enq` counts the packets enqueued, modulo `2 ^ 64`.
* `confirmed_packets` — the messages that `queue_write` has confirmed are the jobs of these.
* `packets_analysed_in_order` — the command's handler is called with the packets enqueued, in the
  order in which they were captured.
-/

/-! ### The capture loop and the queue -/

/-- The snapshot length that `pcap_open_live` is given: `caplen` is never larger. -/
def BUFSIZ : ℕ := 8192

/-- The message is the job of a captured packet. -/
def Snapped (e : Entry) : Prop :=
  ∃ packet : Packet, packet.data.length ≤ BUFSIZ ∧ packet.job.Block e.buf

/-- A snapped packet's job fits into the executor's buffer. -/
theorem Snapped.short {e : Entry} (h : Snapped e) : e.buf.length ≤ executorBuffer := by
  obtain ⟨packet, hlen, hblock⟩ := h
  have hname : packetAnalyze.length = 14 := by decide
  unfold BUFSIZ at hlen
  rw [hblock.length_eq]
  simp only [Job.size, Packet.job, sizeofJob, hname, executorBuffer]
  omega

/-- What a round gives to `queue_write` and what this returns, if it comes to that. -/
def Round.written (r : Round) : Option (List UInt8 × ℤ) :=
  match r.packet, r.malloc with
  | some packet, some pjob =>
      if r.registered then some (r.block packet pjob, r.queueWrite (r.block packet pjob)) else none
  | _, _ => none

/-- The packet of a round whose job the queue takes. -/
def Round.enqueued (r : Round) : Option Packet :=
  match r.packet, r.malloc with
  | some packet, some pjob => if r.takes packet pjob then some packet else none
  | _, _ => none

/-- A round counts the packet that it has enqueued. -/
theorem pcapRound_enq (s : State) (r : Round) :
    ∃ s', pcapRound s r = some s' ∧ s'.enq = s.enq + UInt64.ofNat r.enqueued.toList.length := by
  cases hpacket : r.packet with
  | none => exact ⟨s, by rw [pcapRound, hpacket], by simp [Round.enqueued, hpacket]⟩
  | some packet =>
    cases hmalloc : r.malloc with
    | none =>
      refine ⟨{ s with enqFail := s.enqFail + 1 }, ?_, by simp [Round.enqueued, hpacket, hmalloc]⟩
      rw [pcapRound, hpacket, hmalloc]
      rfl
    | some pjob =>
      have hexec := jobExec_packet r packet pjob
      simp only [pcapRound, hpacket, hmalloc, cmdmgrJobPrepare, hexec]
      cases htakes : r.takes packet pjob with
      | true => exact ⟨_, rfl, by simp [Round.enqueued, hpacket, hmalloc, htakes]⟩
      | false => exact ⟨_, rfl, by simp [Round.enqueued, hpacket, hmalloc, htakes]⟩

/-- **Run.**  `PCAP Enq` is the number of packets enqueued, modulo `2 ^ 64`. -/
theorem enq_loop (rounds : List Round) : ∃ s, pcapLoop rounds = some s ∧
    s.enq = UInt64.ofNat (rounds.filterMap Round.enqueued).length := by
  induction rounds using List.reverseRecOn with
  | nil => exact ⟨State.init, rfl, rfl⟩
  | append_singleton rounds r ih =>
    obtain ⟨s, hs, henq⟩ := ih
    obtain ⟨s', hs', henq'⟩ := pcapRound_enq s r
    refine ⟨s', ?_, ?_⟩
    · rw [pcapLoop, List.foldlM_append, ← pcapLoop, hs]
      simp [hs']
    · rw [henq', henq, List.filterMap_append, List.length_append, UInt64.ofNat_add]
      cases hpacket : r.enqueued <;> simp [hpacket]

/-- The bytes that `queue_write` has confirmed in a round. -/
def Round.confirmed (r : Round) : Option (List UInt8) :=
  r.written.bind fun w => if 0 ≤ w.2 then some w.1 else none

/-- A round in which the test of `cmdmgrJobExec` fails only for a negative result either sends
    nothing, or the confirmed message is the job of the packet enqueued. -/
theorem Round.confirmed_cases {r : Round}
    (htest : ∀ packet pjob, r.packet = some packet → r.malloc = some pjob →
      r.registered = true →
      (r.takes packet pjob = true ↔ 0 ≤ r.queueWrite (r.block packet pjob))) :
    (r.confirmed = none ∧ r.enqueued = none) ∨ ∃ bytes packet, r.confirmed = some bytes ∧
      r.enqueued = some packet ∧ packet.job.Block bytes := by
  unfold Round.confirmed Round.written Round.enqueued
  cases hpacket : r.packet with
  | none => exact Or.inl ⟨rfl, rfl⟩
  | some packet =>
    cases hmalloc : r.malloc with
    | none => exact Or.inl ⟨rfl, rfl⟩
    | some pjob =>
      cases hreg : r.registered with
      | false => exact Or.inl (by simp [Round.takes, hreg])
      | true =>
        -- the job is sent: it counts as enqueued exactly if the queue has confirmed it
        have hiff := htest packet pjob hpacket hmalloc hreg
        by_cases htakes : r.takes packet pjob = true
        · refine Or.inr ⟨r.block packet pjob, packet, ?_, by simp [htakes], ?_⟩
          · simp [hiff.mp htakes]
          · exact ⟨_, pjob, at_jobPrepare r.mem pjob packet.size_lt, rfl⟩
        · have hneg : ¬ 0 ≤ r.queueWrite (r.block packet pjob) := by rwa [← hiff]
          exact Or.inl (by simp [htakes, hneg])

/-- Two selections from one list that agree on what they select. -/
theorem forall₂_filterMap {α β γ : Type} {R : β → γ → Prop} {f : α → Option β} {g : α → Option γ}
    {l : List α}
    (h : ∀ a ∈ l, (f a = none ∧ g a = none) ∨ ∃ b c, f a = some b ∧ g a = some c ∧ R b c) :
    List.Forall₂ R (l.filterMap f) (l.filterMap g) := by
  induction l with
  | nil => exact List.Forall₂.nil
  | cons a l ih =>
    have hrest := ih fun a' ha' => h a' (List.mem_cons_of_mem a ha')
    rcases h a List.mem_cons_self with ⟨hf, hg⟩ | ⟨b, c, hf, hg, hR⟩
    · rwa [List.filterMap_cons_none hf, List.filterMap_cons_none hg]
    · rw [List.filterMap_cons_some hf, List.filterMap_cons_some hg]
      exact List.Forall₂.cons hR hrest

/-- The confirmed messages, round by round. -/
theorem confirmed_eq_filterMap (caps : List Round) :
    ((caps.filterMap Round.written).filter fun w => 0 ≤ w.2).map Prod.fst
      = caps.filterMap Round.confirmed := by
  rw [← List.filterMap_eq_filter, ← List.filterMap_eq_map, List.filterMap_filterMap,
    List.filterMap_filterMap]
  refine List.filterMap_congr fun r _ => ?_
  unfold Round.confirmed
  cases r.written with
  | none => rfl
  | some w => by_cases hw : 0 ≤ w.2 <;> simp [Option.guard, hw]

/-- The messages that `queue_write` has confirmed are the jobs of the packets enqueued. -/
theorem confirmed_packets {ι : Type} {cap : ℕ} {s : Queue.State ι} {x : ι} {caps : List Round}
    (hs : Served cap x s) (hsent : Queue.Sent cap s)
    (hcaps : caps.filterMap Round.written = s.q.writeReturns) :
    List.Forall₂ (fun bytes job => Job.Block bytes job) s.q.confirmed
      ((caps.filterMap Round.enqueued).map Packet.job) := by
  rw [Queue.QueueT.confirmed, ← hcaps, confirmed_eq_filterMap, List.forall₂_map_right_iff]
  refine forall₂_filterMap fun r hr => Round.confirmed_cases ?_
  intro packet pjob hpacket hmalloc hreg
  have hmem : (r.block packet pjob, r.queueWrite (r.block packet pjob)) ∈ s.q.writeReturns := by
    rw [← hcaps]
    refine List.mem_filterMap.mpr ⟨r, hr, ?_⟩
    simp [Round.written, hpacket, hmalloc, hreg]
  have hlen : (r.block packet pjob).length = packet.job.size := length_load _ _ _
  -- a job is small enough for its size to be returned as an `int`
  have hshort : packet.job.size ≤ executorBuffer := by
    obtain ⟨e, he, hbuf⟩ := hs.short.answered _ hmem
    rwa [hbuf, hlen] at he
  have hret : r.queueWrite (r.block packet pjob) < 0 ∨
      r.queueWrite (r.block packet pjob) = Queue.toInt packet.job.size := by
    rcases hsent.returned _ hmem with hneg | ⟨hret, -⟩
    · exact Or.inl hneg
    · exact Or.inr (hret.trans (congrArg Queue.toInt hlen))
  rw [Round.takes, hreg, Bool.true_and, decide_eq_true_iff]
  exact sent_iff_nonneg hshort hret

/-! ### The analysis -/

/-- The call of the handler for a packet. -/
def Packet.call (pexec : UInt64) (packet : Packet) : ExecCall :=
  ⟨pexec, packet.ts, packet.data, UInt64.ofNat packet.data.length⟩

/-- The executor finds the kernel running and the command's handler at `pexec`. -/
def Finds (pexec : UInt64) (env : Env) : Prop :=
  svcKernelIsRunning env.first env.second = true ∧
    findExec env.ans env.table packetAnalyze = pexec

/-- The execution of a packet's job calls the handler with the packet. -/
theorem call_run_job {pexec : UInt64} (hexec : pexec ≠ 0) {env : Env} (henv : Finds pexec env)
    (packet : Packet) : (packet.job.run env).call = some (packet.call pexec) := by
  obtain ⟨hrunning, hfind⟩ := henv
  have hfind' : findExec env.ans env.table packet.job.cmd = pexec := hfind
  simp only [Job.run, hrunning, Bool.not_true, Bool.false_eq_true, if_false, hfind', hexec]
  rfl

/-- So the executions of some packets' jobs make the calls for these packets. -/
theorem calls_of_packets {pexec : UInt64} (hexec : pexec ≠ 0) {rounds : List CmdManager.Round}
    {packets : List Packet} (hlength : packets.length = rounds.length)
    (hfinds : ∀ r ∈ rounds, Finds pexec r.env) :
    (List.zipWith (fun (r : CmdManager.Round) (job : Job) => job.run r.env) rounds
        (packets.map Packet.job)).filterMap Execution.call
      = packets.map (Packet.call pexec) := by
  induction packets generalizing rounds with
  | nil => simp
  | cons packet packets ih =>
    cases rounds with
    | nil => cases hlength
    | cons r rounds =>
      have hrest := ih (Nat.succ.inj hlength) fun r' hr' => hfinds r' (List.mem_cons_of_mem r hr')
      have hcall := call_run_job hexec (hfinds r List.mem_cons_self) packet
      rw [List.map_cons, List.zipWith_cons_cons, List.filterMap_cons_some hcall, hrest,
        List.map_cons]

/-- **Captured packets are analysed in order.**  The capture thread `w` sends the jobs of captured
    packets to the queue for short operations, and the executor `x` of the queue reads them.  In
    every run, whenever `w` is not in the middle of a `queue_write`: the counter `PCAP Enq` is the
    number of packets enqueued, modulo `2 ^ 64`, and if the executor has found the kernel running
    and the command registered in every round, its handler has been called for the first of them,
    in the order of their capture, once for each and with its time, data and length; for all of
    them, when no memory of the queue is in use and the threads have come to rest. -/
theorem packets_analysed_in_order {ι : Type} [DecidableEq ι] {s : Queue.State ι}
    {h : List (Queue.State ι × ι × Queue.Act)} {w x : ι} {cap : ℕ}
    (hq : queueSize .shortOps = some cap) (hr : Run Queue.step (queueCreate ι cap) h s)
    (hwriter : ∀ p ∈ h, WrittenBy w p.2) (hreader : ∀ p ∈ h, ReadBy x p.2)
    (hsnapped : ∀ p ∈ h, Carries Snapped p.2) (hout : (s.pc w).message = none)
    (caps : List Round) (hcaps : caps.filterMap Round.written = s.q.writeReturns)
    (rounds : List CmdManager.Round)
    (hrounds : rounds.map CmdManager.Round.result = s.q.readReturns)
    (pexec : UInt64) (hexec : pexec ≠ 0) (hfinds : ∀ r ∈ rounds, Finds pexec r.env) {fuel : ℕ}
    (hfuel : executorBuffer ≤ fuel) (buffer : UInt64) :
    ∃ st executions analysed, pcapLoop caps = some st
      ∧ st.enq = UInt64.ofNat (caps.filterMap Round.enqueued).length
      ∧ executorLoop fuel buffer rounds = some executions
      ∧ executions.filterMap Execution.call = analysed.map (Packet.call pexec)
      ∧ analysed <+: caps.filterMap Round.enqueued
      ∧ ((∀ t, (s.pc t).rests = true) → s.q.memUsageCurrent = 0 →
          analysed = caps.filterMap Round.enqueued) := by
  have hcap : cap < 2 ^ 64 := by
    cases hq
    decide
  have hshort : ∀ p ∈ h, Carries (fun e => e.buf.length ≤ executorBuffer) p.2 :=
    fun p hp => (hsnapped p hp).mono fun _ he => he.short
  have hs := served_run hcap hr hreader hshort
  -- with one producer that is not writing, what is stored is what has been confirmed
  have hserial := (Queue.soleWriter_run hr hwriter fun p hp => carries_short (hshort p hp)).serial
  have hstored : s.q.accepted.map Entry.buf = s.q.confirmed := by
    rw [hserial.order, Queue.Pc.filed_of_message hout]
    simp
  have hblocks := confirmed_packets hs (Queue.sent_run hr) hcaps
  have hprefix := hs.prefix_accepted
  rw [hstored] at hprefix
  have htake := List.forall₂_take s.q.returned.length hblocks
  rw [← List.prefix_iff_eq_take.mp hprefix, ← List.map_take] at htake
  obtain ⟨hlength, hloop⟩ := hs.executes hrounds hfuel buffer htake
  obtain ⟨st, hst, henq⟩ := enq_loop caps
  refine ⟨st, _, (caps.filterMap Round.enqueued).take s.q.returned.length, hst, henq, hloop, ?_,
    List.take_prefix _ _, fun hrest hempty => ?_⟩
  · rw [List.length_map] at hlength
    exact calls_of_packets hexec hlength fun r hr => hfinds r (List.mem_of_mem_filter hr)
  · refine List.take_of_length_le ?_
    rw [hs.returned_eq hrest hempty, hstored, hblocks.length_eq, List.length_map]

theorem caplen_nil : ([] : List UInt8).length < 2 ^ 32 := by decide

theorem caplen_three : ([1, 2, 3] : List UInt8).length < 2 ^ 32 := by decide

/-- A packet without data. -/
def emptyPacket : Packet := ⟨[], ⟨0, 0⟩, caplen_nil⟩

/-- A packet of three bytes that is captured a second later. -/
def shortPacket : Packet := ⟨[1, 2, 3], ⟨1, 0⟩, caplen_three⟩

/-- A round that enqueues a packet, for which `queue_write` returns `ret`. -/
def sendingRound (packet : Packet) (ret : ℤ) : Round :=
  { closingRound with packet := some packet, registered := true, queueWrite := fun _ => ret }

/-- The message that such a round sends. -/
def packetBytes (packet : Packet) : List UInt8 := (sendingRound packet 0).block packet 4096

/-- A running kernel that knows the command. -/
def analysingEnv : Env :=
  ⟨SVC_KERNEL_STATUS_RUNNING, 0, .ok,
    [⟨.text packetAnalyze, .null, .null, .null, .int 4096, .null, .null⟩], fun _ => 0⟩

/-- The thread `false` sends two packets and the thread `true` gets them. -/
def twoPacketsOver : List (Bool × Queue.Act) :=
  (false, .call (.write ⟨packetBytes emptyPacket, 0⟩ false)) :: List.replicate 93 (false, .go) ++
    (false, .call (.write ⟨packetBytes shortPacket, 0⟩ false)) :: List.replicate 96 (false, .go) ++
    (true, .call (.read true)) :: List.replicate 88 (true, .go) ++
    (true, .call (.read true)) :: List.replicate 91 (true, .go)

/-- The rounds of the executor that get them. -/
def analysingRounds : List CmdManager.Round :=
  [⟨analysingEnv, fun _ => 1, ⟨some (packetBytes emptyPacket), 63⟩⟩,
    ⟨analysingEnv, fun _ => 2, ⟨some (packetBytes shortPacket), 66⟩⟩]

/-- Such a message is the job of its packet. -/
theorem snapped_packetBytes {packet : Packet} (h : packet.data.length ≤ BUFSIZ) (pad : UInt32) :
    Snapped ⟨packetBytes packet, pad⟩ :=
  ⟨packet, h, _, 4096, at_jobPrepare _ _ packet.size_lt, rfl⟩

/-- A round that is told the size of the packet's job has enqueued it. -/
theorem enqueued_sendingRound {packet : Packet} {ret : ℤ} (hpos : ret > 0)
    (hret : UInt64.ofInt ret = UInt64.ofNat packet.job.size) :
    (sendingRound packet ret).enqueued = some packet := by
  have htakes : (sendingRound packet ret).takes packet 4096 = true := by
    simp [Round.takes, sendingRound, hpos, hret]
  show (if (sendingRound packet ret).takes packet 4096 = true then some packet else none) = _
  rw [if_pos htakes]

/-- Two packets are sent, and the handler is called with the one and then with the other. -/
theorem packets_analysed_in_order_two : ∃ executions,
    executorLoop executorBuffer 8192 analysingRounds = some executions
      ∧ executions.filterMap Execution.call = [emptyPacket.call 4096, shortPacket.call 4096] := by
  obtain ⟨h, s, hr, hok, hend⟩ := exists_run_of_play Queue.step
    (queueCreate Bool (1024 * 1024 * 1024))
    (fun _ l => decide (WrittenBy false l) && decide (ReadBy true l)
      && decide (Carries (fun e => e = ⟨packetBytes emptyPacket, 0⟩ ∨
        e = ⟨packetBytes shortPacket, 0⟩) l))
    (fun s => (s.pc false).rests && (s.pc true).rests && s.q.memUsageCurrent = 0
      && (s.pc false).message = none
      && s.q.writeReturns = [(packetBytes emptyPacket, 63), (packetBytes shortPacket, 66)]
      && s.q.readReturns = analysingRounds.map CmdManager.Round.result)
    twoPacketsOver (by decide +kernel)
  simp only [Bool.and_eq_true, decide_eq_true_eq] at hok hend
  obtain ⟨⟨⟨⟨⟨hfalse, htrue⟩, hempty⟩, hout⟩, hwrite⟩, hread⟩ := hend
  have hsnapped : ∀ p ∈ h, Carries Snapped p.2 := by
    refine fun p hp => (hok p hp).2.mono ?_
    rintro _ (rfl | rfl)
    · exact snapped_packetBytes (by decide) 0
    · exact snapped_packetBytes (by decide) 0
  obtain ⟨st, executions, analysed, -, -, hloop, hcalls, -, hall⟩ :=
    packets_analysed_in_order rfl hr (fun p hp => (hok p hp).1.1) (fun p hp => (hok p hp).1.2)
      hsnapped hout [sendingRound emptyPacket 63, sendingRound shortPacket 66] hwrite.symm
      analysingRounds hread.symm 4096 (by decide) (by simp [Finds, analysingRounds]; decide)
      (Nat.le_refl _) 8192
  -- both rounds have been told the size of their job
  have hboth : [sendingRound emptyPacket 63, sendingRound shortPacket 66].filterMap Round.enqueued
      = [emptyPacket, shortPacket] := by
    rw [List.filterMap_cons_some (enqueued_sendingRound (by decide) (by decide)),
      List.filterMap_cons_some (enqueued_sendingRound (by decide) (by decide)), List.filterMap_nil]
  rw [hall (fun t => Bool.rec hfalse htrue t) hempty, hboth] at hcalls
  exact ⟨executions, hloop, hcalls⟩

end Niuchacz.Capture
