import Niuchacz.Queue.Fifo

namespace Niuchacz.Queue

open Lib.Transition

/-!
# The statistics of the queue

The four counters of a queue are updated by separate steps on the two sides.  What a thread has
already counted, or has counted and not yet compared with a maximum, is part of its view:

* `Pending`, `Pc.discounted` — what the producer and the consumer inside their sections have done
  to the counters.
* `Tally` — the number of entries, exactly, at any time.
* `State.entriesPeak`, `State.usagePeak` — the maxima including the pending comparison.
* `statistics_exact` — what the counters say in every state of every run.
-/

variable {ι : Type} {q : QueueT ι} {t : ι} {o : Outcome ι} {cap : ℕ}

/-! ### What a thread has counted -/

/-- What a producer inside its section has done to the statistics: `counted` is 1 while its entry
    is in `_stats_EntriesCurrent` but not yet among the accepted ones, `entries` and `usage` are
    what it will make of the two maxima. -/
structure Pending where
  counted : ℕ
  entries : ℕ → ℕ
  usage : ℕ → ℕ

def Pending.none : Pending := ⟨0, id, id⟩

/-- What a producer at this step has done. -/
def WPc.pending : WPc → Pending
  | .testEntriesMax n => ⟨1, fun m => max m n, id⟩
  | .storeEntriesMax n => ⟨1, fun _ => n, id⟩
  | .addUsage => ⟨1, id, id⟩
  | .testUsageMax n => ⟨0, id, fun m => max m n⟩
  | .storeUsageMax n => ⟨0, id, fun _ => n⟩
  | _ => Pending.none

def Pc.pending : Pc → Pending
  | .write _ _ p => p.pending
  | _ => Pending.none

/-- Whether a consumer at this step has taken its entry out of `_stats_EntriesCurrent` but not
    yet completed the read. -/
def RPc.discounted : RPc → ℕ
  | .subUsage _ _ | .unlock _ _ => 1
  | _ => 0

def Pc.discounted : Pc → ℕ
  | .read _ p => p.discounted
  | _ => 0

/-- What a producer has done to the statistics is seen while it holds its mutex. -/
theorem isView_pending : IsView .write Pc.pending Pending.none := by
  refine IsView.of_outside ?_
  intro p hp
  cases p with
  | write e timed p => cases p <;> first | rfl | exact absurd hp (by simp [Pc.holds, WPc.inSection])
  | _ => rfl

theorem isView_discounted : IsView .read Pc.discounted 0 := by
  refine IsView.of_outside ?_
  intro p hp
  cases p with
  | read timed p => cases p <;> first | rfl | exact absurd hp (by simp [Pc.holds, RPc.inSection])
  | _ => rfl

/-- What the producer that owns `_writeMutex` has done. -/
def State.pending (s : State ι) : Pending := s.viewOf .write Pc.pending Pending.none

/-- What the consumer that owns `_readMutex` has done. -/
def State.discounted (s : State ι) : ℕ := s.viewOf .read Pc.discounted 0

/-- `_stats_EntriesMax`, with the comparison that is still to be made. -/
def State.entriesPeak (s : State ι) : ℕ := s.pending.entries s.q.entriesMax

/-- `_stats_MemUsageMax`, with the comparison that is still to be made. -/
def State.usagePeak (s : State ι) : ℕ := s.pending.usage s.q.memUsageMax

/-! ### What the steps do to the counters -/

/-- Two queues with the same statistics, apart from the used memory. -/
def SameStats (q q' : QueueT ι) : Prop :=
  q'.entriesCurrent = q.entriesCurrent ∧ q'.entriesMax = q.entriesMax ∧
    q'.memUsageMax = q.memUsageMax

/-- What a step of a producer does: at most one of the counters goes up, and its maximum with the
    pending comparison goes up with it. -/
structure Counts (q : QueueT ι) (w : Pending) (q' : QueueT ι) (w' : Pending) : Prop where
  completed : q'.completed = q.completed
  entries : q'.entriesCurrent + q.accepted.length + w.counted =
    q.entriesCurrent + q'.accepted.length + w'.counted
  entriesPeak : q.entriesCurrent ≤ w.entries q.entriesMax →
    w'.entries q'.entriesMax = max (w.entries q.entriesMax) q'.entriesCurrent
  usagePeak : q.memUsageCurrent ≤ w.usage q.memUsageMax →
    w'.usage q'.memUsageMax = max (w.usage q.memUsageMax) q'.memUsageCurrent

/-- A step that leaves the counters and the pending comparison alone. -/
theorem Counts.same {w : Pending} {q' : QueueT ι} (hs : SameStats q q') (hst : SameStore q q') :
    Counts q w q' w := by
  obtain ⟨h1, h2, h3⟩ := hs
  obtain ⟨-, h4, h5, h6⟩ := hst
  refine ⟨h6, by rw [h1, h5], ?_, ?_⟩
  · intro hle
    rw [h2, h1, max_eq_left hle]
  · intro hle
    rw [h3, h4, max_eq_left hle]

/-- The steps of `queue_write`. -/
theorem stepWrite_counts {e : Entry} {timed : Bool} {p : WPc} (hlt : q.entriesCurrent + 1 < 2 ^ 64)
    (h : stepWrite q t e timed p = some o) : Counts q p.pending o.q o.pc.pending := by
  cases p
  case addEntries =>
    cases h
    have hadd : sizeAdd q.entriesCurrent 1 = q.entriesCurrent + 1 := by
      rw [sizeAdd, Nat.mod_eq_of_lt hlt]
    refine ⟨rfl, ?_, fun _ => rfl, fun hle => (max_eq_left hle).symm⟩
    -- the counter is ahead of the log by the entry under way
    show sizeAdd q.entriesCurrent 1 + q.accepted.length + 0 = _ + q.accepted.length + 1
    rw [hadd]
    omega
  case testEntriesMax n =>
    simp only [stepWrite, goto] at h
    split at h
    · -- the value is stored next
      rename_i hgt
      cases h
      refine ⟨rfl, rfl, fun hle => ?_, fun hle => (max_eq_left hle).symm⟩
      replace hle : q.entriesCurrent ≤ max q.entriesMax n := hle
      show n = max (max q.entriesMax n) q.entriesCurrent
      omega
    · -- the old maximum stays, and it is the larger of the two
      rename_i hngt
      cases h
      refine ⟨rfl, rfl, fun hle => ?_, fun hle => (max_eq_left hle).symm⟩
      replace hle : q.entriesCurrent ≤ max q.entriesMax n := hle
      show q.entriesMax = max (max q.entriesMax n) q.entriesCurrent
      omega
  case storeEntriesMax n =>
    cases h
    exact ⟨rfl, rfl, fun hle => (max_eq_left hle).symm, fun hle => (max_eq_left hle).symm⟩
  case addUsage =>
    cases h
    refine ⟨rfl, ?_, fun hle => (max_eq_left hle).symm, fun _ => rfl⟩
    -- the log catches up
    show q.entriesCurrent + q.accepted.length + 1 =
      q.entriesCurrent + (q.accepted ++ [e]).length + 0
    rw [List.length_append, List.length_singleton]
    omega
  case testUsageMax n =>
    simp only [stepWrite, goto] at h
    split at h
    · rename_i hgt
      cases h
      refine ⟨rfl, rfl, fun hle => (max_eq_left hle).symm, fun hle => ?_⟩
      replace hle : q.memUsageCurrent ≤ max q.memUsageMax n := hle
      show n = max (max q.memUsageMax n) q.memUsageCurrent
      omega
    · rename_i hngt
      cases h
      refine ⟨rfl, rfl, fun hle => (max_eq_left hle).symm, fun hle => ?_⟩
      replace hle : q.memUsageCurrent ≤ max q.memUsageMax n := hle
      show q.memUsageMax = max (max q.memUsageMax n) q.memUsageCurrent
      omega
  case storeUsageMax n =>
    cases h
    exact ⟨rfl, rfl, fun hle => (max_eq_left hle).symm, fun hle => (max_eq_left hle).symm⟩
  case lock | woken =>
    obtain ⟨hq, hpc, -⟩ := lockThen_some h
    rw [hpc, hq]
    exact Counts.same ⟨rfl, rfl, rfl⟩ (sameStore_setMutex q _ _)
  all_goals
    simp only [stepWrite, goto] at h
    repeat' split at h
    all_goals
      cases h
      try exact ⟨rfl, rfl, fun hle => (max_eq_left hle).symm, fun hle => (max_eq_left hle).symm⟩

/-- Outside its section a producer leaves the statistics alone. -/
theorem stepWrite_sameStats {e : Entry} {timed : Bool} {p : WPc} (hp : p.inSection = false)
    (h : stepWrite q t e timed p = some o) : SameStats q o.q ∧ o.pc.pending = Pending.none := by
  cases p
  case lock | woken =>
    obtain ⟨hq, hpc, -⟩ := lockThen_some h
    rw [hq, hpc]
    exact ⟨⟨rfl, rfl, rfl⟩, rfl⟩
  case entry | crc =>
    simp only [stepWrite, goto] at h
    split at h
    all_goals
      cases h
      exact ⟨⟨rfl, rfl, rfl⟩, rfl⟩
  case asleep | fault => cases h
  case broadcast =>
    cases h
    exact ⟨⟨rfl, rfl, rfl⟩, rfl⟩
  -- all other points are inside of the section
  all_goals cases hp

theorem sameStats_setMutex (q : QueueT ι) (k : Side) (x : Option ι) :
    SameStats q (q.setMutex k x) := by
  cases k <;> exact ⟨rfl, rfl, rfl⟩

theorem sameStats_addRegistered (q : QueueT ι) (k : Side) (d : ℤ) :
    SameStats q (q.addRegistered k d) := by
  cases k <;> exact ⟨rfl, rfl, rfl⟩

/-- Registration and destruction leave the statistics alone. -/
theorem stepGo_sameStats {p : Pc} (hp : p.elsewhere = true) (h : stepGo q t p = some o) :
    SameStats q o.q := by
  have hlock : ∀ {k : Side} {p' : Pc}, lockThen q k t p' = some o → SameStats q o.q := by
    intro k p' hl
    rw [(lockThen_some hl).1]
    exact sameStats_setMutex q k _
  cases p with
  | idle => cases h
  | write e timed p => cases hp
  | read timed p => cases hp
  | new k p =>
    cases p with
    | lock => exact hlock h
    | test =>
      simp only [stepGo, stepNew, goto] at h
      split at h
      all_goals
        cases h
        exact ⟨rfl, rfl, rfl⟩
    | inc => cases h; exact sameStats_addRegistered q k _
    | unlock success => cases h; exact sameStats_setMutex q k _
  | free k p =>
    cases p with
    | lock => exact hlock h
    | dec => cases h; exact sameStats_addRegistered q k _
    | unlock => cases h; exact sameStats_setMutex q k _
    | broadcast => cases h; exact ⟨rfl, rfl, rfl⟩
  | destroy p =>
    cases p with
    | lock k => exact hlock h
    | woken k => exact hlock h
    | test k =>
      simp only [stepGo, stepDestroy, goto] at h
      split at h
      all_goals
        cases h
        exact ⟨rfl, rfl, rfl⟩
    | flag => cases h; exact ⟨rfl, rfl, rfl⟩
    | wait k => cases h; exact sameStats_setMutex q k _
    | asleep k => cases h
    | unlock k => cases h; exact sameStats_setMutex q k _
    | free => cases h; exact ⟨rfl, rfl, rfl⟩

/-- What a step of a consumer does: the counters go down at most, and what is taken out of
    `_stats_EntriesCurrent` is completed. -/
structure Discounts (q : QueueT ι) (d : ℕ) (q' : QueueT ι) (d' : ℕ) : Prop where
  accepted : q'.accepted = q.accepted
  entriesMax : q'.entriesMax = q.entriesMax
  usageMax : q'.memUsageMax = q.memUsageMax
  entries_le : q'.entriesCurrent ≤ q.entriesCurrent
  usage_le : q'.memUsageCurrent ≤ q.memUsageCurrent
  entries : q'.entriesCurrent + q'.completed.length + d' =
    q.entriesCurrent + q.completed.length + d

/-- The steps of `queue_read`. -/
theorem stepRead_discounts {timed : Bool} {p : RPc}
    (hpos : ∀ hdr buf, p = .subEntries hdr buf → 1 ≤ q.entriesCurrent)
    (husage : ∀ hdr buf, p = .subUsage hdr buf →
      sizeAdd (headerLen hdr) headerSize ≤ q.memUsageCurrent)
    (h : stepRead q t timed p = some o) : Discounts q p.discounted o.q o.pc.discounted := by
  cases p
  case lock | woken =>
    obtain ⟨hq, hpc, -⟩ := lockThen_some h
    rw [hpc, hq]
    exact ⟨rfl, rfl, rfl, le_rfl, le_rfl, rfl⟩
  case subEntries hdr buf =>
    cases h
    -- without an entry to take off, the subtraction would wrap around
    have hone := hpos hdr buf rfl
    have hsub : sizeSub q.entriesCurrent 1 = q.entriesCurrent - 1 := by
      rw [sizeSub, if_pos hone]
    refine ⟨rfl, rfl, rfl, ?_, le_rfl, ?_⟩
    · show sizeSub q.entriesCurrent 1 ≤ q.entriesCurrent
      omega
    · show sizeSub q.entriesCurrent 1 + q.completed.length + 1 = _ + q.completed.length + 0
      omega
  case subUsage hdr buf =>
    cases h
    refine ⟨rfl, rfl, rfl, le_rfl, ?_, rfl⟩
    show sizeSub q.memUsageCurrent (sizeAdd (headerLen hdr) headerSize) ≤ q.memUsageCurrent
    rw [sizeSub, if_pos (husage hdr buf rfl)]
    omega
  case unlock hdr buf =>
    cases h
    refine ⟨rfl, rfl, rfl, le_rfl, le_rfl, ?_⟩
    show q.entriesCurrent + (q.completed ++ [buf]).length + 0 = _ + q.completed.length + 1
    rw [List.length_append, List.length_singleton]
    omega
  all_goals
    simp only [stepRead, goto] at h
    repeat' split at h
    all_goals
      cases h
      try exact ⟨rfl, rfl, rfl, le_rfl, le_rfl, rfl⟩

theorem Pc.pending_elsewhere {p : Pc} (h : p.elsewhere = true) : p.pending = Pending.none := by
  cases p <;> first | rfl | cases h

theorem Pc.discounted_elsewhere {p : Pc} (h : p.elsewhere = true) : p.discounted = 0 := by
  cases p <;> first | rfl | cases h

/-! ### The number of entries -/

/-- `_stats_EntriesCurrent` counts the accepted messages and the one being accepted, without the
    completed ones and the one being completed. -/
def Tally (s : State ι) : Prop :=
  s.q.entriesCurrent + s.q.completed.length + s.discounted =
    s.q.accepted.length + s.pending.counted

theorem tally_queueCreate (size : ℕ) : Tally (queueCreate ι size) := rfl

theorem length_stored_ge (unread : List Entry) :
    headerSize * unread.length ≤ (stored unread).length := by
  induction unread with
  | nil => simp
  | cons e rest ih =>
    have hcons : (stored (e :: rest)).length = e.encode.length + (stored rest).length := by
      simp [stored]
    rw [hcons, length_encode, List.length_cons, headerSize] at *
    omega

/-- A producer has counted at most one message ahead of its being accepted. -/
theorem Pc.counted_le (p : Pc) : p.pending.counted ≤ 1 := by
  cases p with
  | write e timed p => cases p <;> simp [Pc.pending, WPc.pending, Pending.none]
  | _ => simp [Pc.pending, Pending.none]

/-- As only one producer is in its section, there is at most one such message. -/
theorem State.counted_le (s : State ι) : s.pending.counted ≤ 1 := by
  unfold State.pending State.viewOf
  split
  · exact Pc.counted_le _
  · simp [Pending.none]

section
variable {s : State ι}

/-- The accepted messages that have not been read take up memory, so there are not too many. -/
theorem Good.length_accepted_le (hg : Good cap s) :
    headerSize * s.q.accepted.length ≤ headerSize * (s.q.completed.length + 1) + cap := by
  obtain ⟨front, unread, base, hw⟩ := hg.shows
  have hfront : front.length ≤ s.q.completed.length + 1 := by
    have hlen := congrArg List.length hw.read
    rw [List.length_map, List.length_append] at hlen
    have hone : s.rview.released?.length ≤ 1 := by
      cases s.rview <;> simp [RView.released?]
    omega
  have hstored := length_stored_ge unread
  have hroom := hw.room
  rw [hw.usage_eq] at hroom
  rw [hw.split, List.length_append]
  unfold headerSize at *
  omega

/-- The count of entries stays far from the end of its range. -/
theorem Good.entriesCurrent_lt (hcap : cap < 2 ^ 64) (hg : Good cap s) (ht : Tally s) :
    s.q.entriesCurrent + 1 < 2 ^ 64 := by
  have hacc := hg.length_accepted_le
  have hcount := s.counted_le
  unfold Tally at ht
  unfold headerSize at hacc
  omega

/-- **No underflow of the entries.**  A consumer about to decrement finds its entry counted. -/
theorem Good.entriesCurrent_pos {timed : Bool} {hdr buf : List UInt8} (hg : Good cap s)
    (ht : Tally s) (hp : s.pc t = .read timed (.subEntries hdr buf)) :
    1 ≤ s.q.entriesCurrent := by
  have hown : (s.pc t).holds .read = true := by rw [hp]; rfl
  have hdis : s.discounted = 0 := by
    rw [State.discounted, viewOf_owner hg.exclusive hown, hp]
    rfl
  obtain ⟨front, unread, base, hw⟩ := hg.shows_read hp rfl
  obtain ⟨e, rest, hunread, -⟩ := hw.reader
  have hlen := congrArg List.length hw.read
  have hacc := congrArg List.length hw.split
  rw [List.length_map, List.length_append] at hlen
  rw [List.length_append, hunread, List.length_cons] at hacc
  unfold Tally at ht
  omega

/-- **No underflow of the memory.**  A consumer about to give memory back has used memory. -/
theorem Good.memUsageCurrent_ge {timed : Bool} {hdr buf : List UInt8} (hcap : cap < 2 ^ 64)
    (hg : Good cap s) (hp : s.pc t = .read timed (.subUsage hdr buf)) :
    sizeAdd (headerLen hdr) headerSize ≤ s.q.memUsageCurrent := by
  obtain ⟨e, he, rfl, -, hle⟩ := Ok.copied (hg.shows_read hp rfl)
  have hfit := hg.shows.fits he
  have hsize : sizeAdd e.buf.length headerSize = headerSize + e.buf.length :=
    entrySize_eq (by omega)
  rw [headerLen_header e (by omega), hsize]
  rwa [length_encode] at hle

end

section
variable [DecidableEq ι] {s : State ι}

/-- A step that leaves the counters alone and shows nothing. -/
theorem counts_quiet {a : Act} (hg : Good cap s) (h : outcome s.q t (s.pc t) a = some o)
    (hst : SameStats s.q o.q) (hs : SameStore s.q o.q)
    (hw : (s.pc t).pending = Pending.none) (hw' : o.pc.pending = Pending.none)
    (hd : (s.pc t).discounted = 0) (hd' : o.pc.discounted = 0) :
    Counts s.q s.pending o.q (s.apply t o).pending ∧ (s.apply t o).discounted = s.discounted := by
  have hpending : (s.apply t o).pending = s.pending :=
    viewOf_apply_quiet isView_pending hg.exclusive h hw hw'
  rw [hpending]
  exact ⟨Counts.same hst hs, viewOf_apply_quiet isView_discounted hg.exclusive h hd hd'⟩

/-- The steps that are not a consumer's. -/
theorem counts_apply {a : Act} (hcap : cap < 2 ^ 64) (hg : Good cap s) (ht : Tally s)
    (h : outcome s.q t (s.pc t) a = some o) (hp : ∀ timed p, s.pc t ≠ .read timed p) :
    Counts s.q s.pending o.q (s.apply t o).pending ∧ (s.apply t o).discounted = s.discounted := by
  rcases (outcome_some h).2 with ⟨c, -, hidle, rfl⟩ | ⟨-, hgo⟩ | ⟨timedOut, -, hwake⟩
  · refine counts_quiet hg h ⟨rfl, rfl, rfl⟩ ⟨rfl, rfl, rfl, rfl⟩ ?_ ?_ ?_ ?_
    · rw [hidle]; rfl
    · cases c <;> rfl
    · rw [hidle]; rfl
    · cases c <;> rfl
  · -- registration and destruction do not touch the counters
    have hquiet : (s.pc t).elsewhere = true → o.Quiet s.q →
        Counts s.q s.pending o.q (s.apply t o).pending ∧
          (s.apply t o).discounted = s.discounted := by
      rintro helse ⟨hs, -, -, helse'⟩
      exact counts_quiet hg h (stepGo_sameStats helse hgo) hs (Pc.pending_elsewhere helse)
        (Pc.pending_elsewhere helse') (Pc.discounted_elsewhere helse)
        (Pc.discounted_elsewhere helse')
    cases hpc : s.pc t with
    | idle => rw [hpc] at hgo; cases hgo
    | read timed p => exact absurd hpc (hp timed p)
    | new k p => exact hquiet (by rw [hpc]; rfl) (stepNew_quiet (by rw [hpc] at hgo; exact hgo))
    | free k p => exact hquiet (by rw [hpc]; rfl) (stepFree_quiet (by rw [hpc] at hgo; exact hgo))
    | destroy p =>
      exact hquiet (by rw [hpc]; rfl) (stepDestroy_quiet (by rw [hpc] at hgo; exact hgo))
    | write e timed p =>
      have hstep : stepWrite s.q t e timed p = some o := by rw [hpc] at hgo; exact hgo
      have hd : (s.pc t).discounted = 0 := by rw [hpc]; rfl
      have hd' : o.pc.discounted = 0 := by
        rcases stepWrite_pc hstep with ho | ⟨p', ho⟩ <;> rw [ho] <;> rfl
      by_cases hin : p.inSection = true
      · have hown : (s.pc t).holds .write = true := by rw [hpc]; simpa [Pc.holds] using hin
        have hcounts := stepWrite_counts (hg.entriesCurrent_lt hcap ht) hstep
        have hbefore : s.pending = p.pending := by
          rw [State.pending, viewOf_owner hg.exclusive hown, hpc]
          rfl
        have hafter : (s.apply t o).pending = o.pc.pending :=
          viewOf_apply_owner isView_pending hg.exclusive h hown
        rw [hbefore, hafter]
        exact ⟨hcounts, viewOf_apply_quiet isView_discounted hg.exclusive h hd hd'⟩
      · rw [Bool.not_eq_true] at hin
        have hw : (s.pc t).pending = Pending.none :=
          isView_pending.outside _ (by rw [hpc]; simpa [Pc.holds] using hin)
        obtain ⟨hst, hw'⟩ := stepWrite_sameStats hin hstep
        exact counts_quiet hg h hst (stepWrite_outside hin hstep).1 hw hw' hd hd'
  · rcases stepWake_some hwake with ⟨e, timed, hpc, rfl⟩ | ⟨timed, hpc, rfl⟩ | ⟨k, hpc, rfl⟩
    · exact counts_quiet hg h ⟨rfl, rfl, rfl⟩ ⟨rfl, rfl, rfl, rfl⟩ (by rw [hpc]; rfl) rfl
        (by rw [hpc]; rfl) rfl
    · exact absurd hpc (hp timed _)
    · exact counts_quiet hg h ⟨rfl, rfl, rfl⟩ ⟨rfl, rfl, rfl, rfl⟩ (by rw [hpc]; rfl) rfl
        (by rw [hpc]; rfl) rfl

/-- The steps of a consumer. -/
theorem discounts_apply {a : Act} {timed : Bool} {p : RPc} (hcap : cap < 2 ^ 64) (hg : Good cap s)
    (ht : Tally s) (h : outcome s.q t (s.pc t) a = some o) (hp : s.pc t = .read timed p) :
    Discounts s.q s.discounted o.q (s.apply t o).discounted ∧
      (s.apply t o).pending = s.pending := by
  -- what the step does to the consumer's own part
  have hown : Discounts s.q p.discounted o.q o.pc.discounted ∧ o.pc.pending = Pending.none := by
    rcases (outcome_some h).2 with ⟨c, -, hidle, rfl⟩ | ⟨-, hgo⟩ | ⟨timedOut, -, hwake⟩
    · rw [hp] at hidle
      cases hidle
    · rw [hp] at hgo
      refine ⟨stepRead_discounts ?_ ?_ hgo, ?_⟩
      · rintro hdr buf rfl
        exact hg.entriesCurrent_pos ht hp
      · rintro hdr buf rfl
        exact hg.memUsageCurrent_ge hcap hp
      · rcases stepRead_pc hgo with ho | ⟨p', ho⟩ <;> rw [ho] <;> rfl
    · rw [hp] at hwake
      rcases stepWake_some hwake with ⟨e, timed, hpc, rfl⟩ | ⟨timed, hpc, rfl⟩ | ⟨k, hpc, rfl⟩
      · cases hpc
      · cases hpc
        exact ⟨⟨rfl, rfl, rfl, le_rfl, le_rfl, rfl⟩, rfl⟩
      · cases hpc
  obtain ⟨hdis, hw'⟩ := hown
  refine ⟨?_, viewOf_apply_quiet isView_pending hg.exclusive h (by rw [hp]; rfl) hw'⟩
  rcases viewOf_apply isView_discounted hg.exclusive h with ⟨hb, ha⟩ | ⟨heq, hb, ha⟩
  · rw [hp] at hb
    have hbefore : s.discounted = p.discounted := hb
    have hafter : (s.apply t o).discounted = o.pc.discounted := ha
    rw [hbefore, hafter]
    exact hdis
  · -- the step shows nothing: the other consumer's part stays
    rw [hp] at hb
    have hb : p.discounted = 0 := hb
    have heq : (s.apply t o).discounted = s.discounted := heq
    rw [heq]
    have hentries := hdis.entries
    exact { hdis with entries := by omega }

/-- **Step.**  Every step keeps the tally. -/
theorem tally_apply {a : Act} (hcap : cap < 2 ^ 64) (hg : Good cap s) (ht : Tally s)
    (h : outcome s.q t (s.pc t) a = some o) : Tally (s.apply t o) := by
  show o.q.entriesCurrent + o.q.completed.length + (s.apply t o).discounted =
    o.q.accepted.length + (s.apply t o).pending.counted
  have htally := ht
  unfold Tally at htally
  by_cases hp : ∃ timed p, s.pc t = .read timed p
  · obtain ⟨timed, p, hp⟩ := hp
    obtain ⟨hdis, hpending⟩ := discounts_apply hcap hg ht h hp
    rw [hdis.entries, hdis.accepted, hpending]
    exact htally
  · push Not at hp
    obtain ⟨hcounts, hdis⟩ := counts_apply hcap hg ht h hp
    have hentries := hcounts.entries
    rw [hcounts.completed, hdis]
    omega

/-- **Step.**  The maxima, with the pending comparison, follow the counters. -/
theorem peaks_apply {a : Act} (hcap : cap < 2 ^ 64) (hg : Good cap s) (ht : Tally s)
    (h : outcome s.q t (s.pc t) a = some o) :
    (s.q.entriesCurrent ≤ s.entriesPeak →
      (s.apply t o).entriesPeak = max s.entriesPeak o.q.entriesCurrent) ∧
    (s.q.memUsageCurrent ≤ s.usagePeak →
      (s.apply t o).usagePeak = max s.usagePeak o.q.memUsageCurrent) := by
  by_cases hp : ∃ timed p, s.pc t = .read timed p
  · -- the counters only go down
    obtain ⟨timed, p, hp⟩ := hp
    obtain ⟨hdis, hpending⟩ := discounts_apply hcap hg ht h hp
    have hentries : (s.apply t o).entriesPeak = s.entriesPeak := by
      unfold State.entriesPeak
      rw [hpending]
      exact congrArg _ hdis.entriesMax
    have husage : (s.apply t o).usagePeak = s.usagePeak := by
      unfold State.usagePeak
      rw [hpending]
      exact congrArg _ hdis.usageMax
    rw [hentries, husage]
    exact ⟨fun hle => (max_eq_left (hdis.entries_le.trans hle)).symm,
      fun hle => (max_eq_left (hdis.usage_le.trans hle)).symm⟩
  · push Not at hp
    obtain ⟨hcounts, -⟩ := counts_apply hcap hg ht h hp
    exact ⟨hcounts.entriesPeak, hcounts.usagePeak⟩

end

/-! ### Runs -/

/-- The thread is inside the critical section of `queue_write`. -/
def Pc.producing : Pc → Bool
  | .write _ _ p => p.inSection
  | _ => false

/-- The thread is inside the critical section of `queue_read`. -/
def Pc.consuming : Pc → Bool
  | .read _ p => p.inSection
  | _ => false

/-- A view that shows nothing where no thread is. -/
theorem viewOf_eq_default {α : Type} {k : Side} {f : Pc → α} {d : α} {s : State ι}
    (h : ∀ t, f (s.pc t) = d) : s.viewOf k f d = d := by
  unfold State.viewOf
  split
  · exact h _
  · rfl

/-- Nobody but a producer has anything pending. -/
theorem Pc.pending_of_not_producing {p : Pc} (hp : p.producing = false) :
    p.pending = Pending.none ∧ p.wview = WView.none := by
  cases p with
  | write e timed p => cases p <;> first | exact ⟨rfl, rfl⟩ | cases hp
  | _ => exact ⟨rfl, rfl⟩

theorem Pc.discounted_of_not_consuming {p : Pc} (hp : p.consuming = false) :
    p.discounted = 0 ∧ p.rview = RView.none := by
  cases p with
  | read timed p => cases p <;> first | exact ⟨rfl, rfl⟩ | cases hp
  | _ => exact ⟨rfl, rfl⟩

/-- With nobody inside a section, the memory in use is that of the unread messages. -/
theorem Good.usage_of_quiet {s : State ι} (hg : Good cap s)
    (hw : ∀ t, (s.pc t).producing = false) (hr : ∀ t, (s.pc t).consuming = false) :
    s.q.memUsageCurrent = (s.q.unread.map fun e => headerSize + e.buf.length).sum := by
  have hshows := hg.shows
  rw [State.wview, viewOf_eq_default fun t => (Pc.pending_of_not_producing (hw t)).2,
    State.rview, viewOf_eq_default fun t => (Pc.discounted_of_not_consuming (hr t)).2] at hshows
  obtain ⟨front, rest, base, hwin⟩ := hshows
  have hread : front.map Entry.buf = s.q.completed := by simpa [RView.released?] using hwin.read
  have hrest : s.q.unread = rest := by
    rw [QueueT.unread, hwin.split, ← hread, List.length_map, List.drop_left]
  rw [hrest, hwin.usage_eq]
  simp [stored, List.length_flatMap]

/-- The invariant of the queue together with the tally. -/
def Booked (cap : ℕ) (s : State ι) : Prop := Good cap s ∧ Tally s

/-- A new queue satisfies the invariant and the tally. -/
theorem booked_queueCreate (cap : ℕ) : Booked cap (queueCreate ι cap) :=
  ⟨good_queueCreate cap, tally_queueCreate cap⟩

section
variable [DecidableEq ι] {s : State ι} {h : List (State ι × ι × Act)}

/-- **Step.**  Every step keeps the invariant and the tally. -/
theorem booked_step {s' : State ι} {l : ι × Act} (hcap : cap < 2 ^ 64) (hb : Booked cap s)
    (hs : step s l = some s') : Booked cap s' := by
  refine ⟨good_step hcap hb.1 hs, ?_⟩
  obtain ⟨o, ho, rfl⟩ := Option.map_eq_some_iff.mp hs
  exact tally_apply hcap hb.1 hb.2 ho

/-- **Run.**  The tally holds, and the maxima with the pending comparison are the largest values
    so far. -/
theorem booked_run (hcap : cap < 2 ^ 64) (hr : Run step (queueCreate ι cap) h s) :
    Booked cap s ∧ IsGreatest (passed (fun s => s.q.entriesCurrent) h s) s.entriesPeak ∧
      IsGreatest (passed (fun s => s.q.memUsageCurrent) h s) s.usagePeak := by
  have hkeep : ∀ (s : State ι) (l : ι × Act) (s' : State ι), Booked cap s → True →
      step s l = some s' → Booked cap s' := fun _ _ _ hb _ hs => booked_step hcap hb hs
  have hstart : Booked cap (queueCreate ι cap) := booked_queueCreate cap
  refine ⟨hr.invariant (fun _ _ => True) _ hstart hkeep (fun _ _ => trivial), ?_, ?_⟩
  · refine hr.isGreatest (fun _ _ => True) _ hstart hkeep rfl ?_ (fun _ _ => trivial)
    rintro s l s' ⟨hg, ht⟩ - hs hle
    obtain ⟨o, ho, rfl⟩ := Option.map_eq_some_iff.mp hs
    exact (peaks_apply hcap hg ht ho).1 hle
  · refine hr.isGreatest (fun _ _ => True) _ hstart hkeep rfl ?_ (fun _ _ => trivial)
    rintro s l s' ⟨hg, ht⟩ - hs hle
    obtain ⟨o, ho, rfl⟩ := Option.map_eq_some_iff.mp hs
    exact (peaks_apply hcap hg ht ho).2 hle

/-- **The statistics are exact.**  In every state of every run of any number of threads on a
    queue of any capacity: a consumer about to subtract from a counter finds at least as much in
    it, and the used memory does not exceed the size.  While no producer is inside its critical
    section, the two maxima are the largest values that the counters have had since
    `queue_create`.  While nobody is inside a critical section, the counters are the number of the
    unread messages and the sum of their sizes with 16 bytes for each. -/
theorem statistics_exact (hcap : cap < 2 ^ 64) (hr : Run step (queueCreate ι cap) h s) :
    (∀ t timed hdr buf, s.pc t = .read timed (.subEntries hdr buf) → 1 ≤ s.q.entriesCurrent) ∧
    (∀ t timed hdr buf, s.pc t = .read timed (.subUsage hdr buf) →
      sizeAdd (headerLen hdr) headerSize ≤ s.q.memUsageCurrent) ∧
    s.q.memUsageCurrent ≤ s.q.memSizeCurrent ∧
    ((∀ t, (s.pc t).producing = false) →
      IsGreatest (passed (fun s => s.q.entriesCurrent) h s) s.q.entriesMax ∧
      IsGreatest (passed (fun s => s.q.memUsageCurrent) h s) s.q.memUsageMax) ∧
    ((∀ t, (s.pc t).producing = false) → (∀ t, (s.pc t).consuming = false) →
      s.q.entriesCurrent = s.q.unread.length ∧
      s.q.memUsageCurrent = (s.q.unread.map fun e => 16 + e.buf.length).sum) := by
  obtain ⟨⟨hg, ht⟩, hpeaks⟩ := booked_run hcap hr
  have hpending : (∀ t, (s.pc t).producing = false) → s.pending = Pending.none := fun hw =>
    viewOf_eq_default fun t => (Pc.pending_of_not_producing (hw t)).1
  refine ⟨?_, ?_, ?_, ?_, ?_⟩
  · intro t timed hdr buf hp
    exact hg.entriesCurrent_pos ht hp
  · intro t timed hdr buf hp
    exact hg.memUsageCurrent_ge hcap hp
  · have hle := hg.shows.usage_le
    rw [hg.size]
    omega
  · intro hw
    unfold State.entriesPeak State.usagePeak at hpeaks
    rw [hpending hw] at hpeaks
    exact hpeaks
  · intro hw hv
    refine ⟨?_, hg.usage_of_quiet hw hv⟩
    -- nothing is under way on either side, so the tally is the number itself
    have hdis : s.discounted = 0 :=
      viewOf_eq_default fun t => (Pc.discounted_of_not_consuming (hv t)).1
    unfold Tally at ht
    rw [hdis, hpending hw] at ht
    rw [QueueT.unread, List.length_drop]
    have hnone : Pending.none.counted = 0 := rfl
    omega

end

/-- One message of one byte has been written to a queue of 64 bytes. -/
theorem statistics_exact_one_byte : ∃ h s, Run step (queueCreate Unit 64) h s ∧
    s.q.entriesCurrent = 1 ∧ s.q.memUsageCurrent = 17 ∧
      IsGreatest (passed (fun s => s.q.memUsageCurrent) h s) s.q.memUsageMax := by
  have hcap : 64 < 2 ^ 64 := by decide
  let e : Entry := ⟨[7], 0⟩
  obtain ⟨h, s, hr, -, -, -, ⟨hacc, hcomp, hpc⟩, -⟩ :=
    reach_write hcap (show headerSize + e.buf.length < 64 by decide) (queueCreate Unit 64)
      (good_queueCreate 64) rfl ⟨rfl, rfl, rfl⟩
  obtain ⟨-, -, -, hmax, hcur⟩ := statistics_exact hcap hr
  have hidle : ∀ t, s.pc t = .idle := fun _ => hpc
  have hw : ∀ t, (s.pc t).producing = false := fun t => by rw [hidle t]; rfl
  have hv : ∀ t, (s.pc t).consuming = false := fun t => by rw [hidle t]; rfl
  have hunread : s.q.unread = [e] := by rw [QueueT.unread, hacc, hcomp]; rfl
  obtain ⟨hentries, husage⟩ := hcur hw hv
  rw [hunread] at hentries husage
  exact ⟨h, s, hr, hentries, husage, (hmax hw).2⟩

end Niuchacz.Queue
