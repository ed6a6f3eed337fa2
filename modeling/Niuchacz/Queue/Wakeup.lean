import Niuchacz.Lib.CondVar
import Niuchacz.Queue.Fifo

namespace Niuchacz.Queue

open Lib.CondVar Lib.Transition

/-!
# Wake-ups

A consumer sleeps on `_readCondVariable` until there is used memory, a producer on
`_writeCondVariable` until there is room for its entry.  Each tests what the other side
changes under the *other* mutex, and the other side broadcasts with no mutex held, so a
broadcast can fall between a waiter's test and its sleep.

* `Pc.phase`, `QueueT.Met` — the condition variable of a side as an instance of `Lib.CondVar`.
* `State.LostRead`, `State.LostWrite` — a thread sleeps although nothing keeps it waiting and
  no broadcast is due.
* `no_lost_wakeup` — this happens only after a broadcast that a thread between test and sleep
  has missed, and after such a broadcast it can happen with the next step.
-/

variable {ι : Type} {q : QueueT ι} {t : ι} {o : Outcome ι} {cap : ℕ}

/-! ### The two condition variables -/

/-- Where a thread stands with respect to the condition variable of a side.  Consumers wait on
    `_readCondVariable` for any used memory, producers on `_writeCondVariable` for the size of
    their entry; each side owes the other a broadcast from its update of the used memory on. -/
def Pc.phase : Side → Pc → Phase ℕ
  | .read, .read _ .wait => .tested 0
  | .read, .read _ .asleep => .asleep 0
  | .read, .write _ _ (.testUsageMax _) | .read, .write _ _ (.storeUsageMax _)
  | .read, .write _ _ .unlock | .read, .write _ _ .broadcast => .pending
  | .write, .write e _ .wait => .tested e.entrySize
  | .write, .write e _ .asleep => .asleep e.entrySize
  | .write, .read _ (.unlock _ _) | .write, .read _ (.broadcast _ _) => .pending
  | _, _ => .other

/-- What the threads of a side wait for: used memory, or room for an entry of `n` bytes. -/
def QueueT.Met (q : QueueT ι) : Side → ℕ → Prop
  | .read, _ => q.memUsageCurrent ≠ 0
  | .write, n => n ≤ sizeSub q.memSizeCurrent q.memUsageCurrent

/-- The next step is the broadcast of `queue_write` to the consumers, or that of `queue_read` to
    the producers. -/
def Pc.broadcasts : Side → Pc → Prop
  | .read, p => ∃ e timed, p = .write e timed .broadcast
  | .write, p => ∃ timed hdr buf, p = .read timed (.broadcast hdr buf)

/-- A thread of the side sleeps although nothing keeps it waiting, and no thread of the other side
    is between its update of the used memory and its broadcast. -/
def State.LostOn (k : Side) (s : State ι) : Prop :=
  Lost (fun t => (s.pc t).phase k) (s.q.Met k)

/-- The step is the last broadcast due to a side, and a thread of it that would find what it needs
    stands between its test and its sleep. -/
def MissedOn (k : Side) (s : State ι) (l : ι × Act) : Prop :=
  l.2 = .go ∧ (s.pc l.1).broadcasts k ∧ Missed (fun t => (s.pc t).phase k) (s.q.Met k) l.1

/-- A consumer sleeps while there is used memory and no producer is between its update of the
    used memory and its broadcast. -/
def State.LostRead (s : State ι) : Prop := s.LostOn .read

/-- A producer sleeps while there is room for its entry and no consumer is between its update
    of the used memory and its broadcast. -/
def State.LostWrite (s : State ι) : Prop := s.LostOn .write

/-- The step is the last broadcast due to consumers, and a consumer that would find data
    stands between its test and its sleep. -/
def MissedRead (s : State ι) (l : ι × Act) : Prop := MissedOn .read s l

/-- The step is the last broadcast due to producers, and a producer that would find room
    stands between its test and its sleep. -/
def MissedWrite (s : State ι) (l : ι × Act) : Prop := MissedOn .write s l

/-- A broadcast wakes the sleepers of its own side and nobody else. -/
theorem phase_signalled (k : Side) (g : Option Side) (p : Pc) :
    (p.signalled g).phase k = if g = some k then (p.phase k).wake else p.phase k := by
  cases g with
  | none => rfl
  | some k' =>
    cases p with
    | write e timed p => cases p <;> cases k <;> cases k' <;> rfl
    | read timed p => cases p <;> cases k <;> cases k' <;> rfl
    | destroy p => cases p <;> cases k <;> cases k' <;> rfl
    | _ => cases k <;> cases k' <;> rfl

/-- A thread that has tested is at its wait. -/
theorem wait_of_tested {p : Pc} {k : Side} {n : ℕ} (h : p.phase k = .tested n) :
    (∃ timed, p = .read timed .wait) ∨ ∃ e timed, p = .write e timed .wait := by
  cases p with
  | read timed p =>
    cases p with
    | wait => exact Or.inl ⟨timed, rfl⟩
    | _ => cases k <;> cases h
  | write e timed p =>
    cases p with
    | wait => exact Or.inr ⟨e, timed, rfl⟩
    | _ => cases k <;> cases h
  | _ => cases k <;> cases h

/-- It goes to sleep with its next step, for the same need and without a broadcast. -/
theorem sleeps_of_tested {p : Pc} {k : Side} {n : ℕ} (h : p.phase k = .tested n) :
    p.signalled (some k) = p ∧ ∀ (q : QueueT ι) (u : ι), ∃ o, stepGo q u p = some o ∧
      o.signal = none ∧ o.pc.phase k = .asleep n ∧ ∀ k', o.q.Met k' = q.Met k' := by
  rcases wait_of_tested h with ⟨timed, rfl⟩ | ⟨e, timed, rfl⟩
  all_goals
    cases k <;> cases h
    exact ⟨rfl, fun q u => ⟨_, rfl, rfl, rfl, fun k' => by cases k' <;> rfl⟩⟩

/-- The broadcast leaves its thread free of both condition variables and the memory as it was. -/
theorem broadcast_step {p : Pc} {k : Side} (h : p.broadcasts k) (q : QueueT ι) (u : ι) :
    p.phase k = .pending ∧ ∃ o, stepGo q u p = some o ∧ o.signal = some k ∧
      o.pc.phase k = .other ∧ o.q.freed = q.freed ∧ ∀ k', o.q.Met k' = q.Met k' := by
  cases k with
  | read =>
    obtain ⟨e, timed, rfl⟩ := h
    exact ⟨rfl, _, rfl, rfl, rfl, rfl, fun k' => by cases k' <;> rfl⟩
  | write =>
    obtain ⟨timed, hdr, buf, rfl⟩ := h
    exact ⟨rfl, _, rfl, rfl, rfl, rfl, fun k' => by cases k' <;> rfl⟩

/-- What a step of a thread means for the condition variable of a side. -/
def Outcome.Waits (q : QueueT ι) (p : Pc) (o : Outcome ι) (k : Side) : Prop :=
  Steps (q.Met k) (o.q.Met k) (p.phase k) (o.pc.phase k) (o.signal = some k)

/-! ### What the steps mean for the waiters -/

/-- What is waited for depends on the two sizes only. -/
theorem met_congr {q' : QueueT ι} (hu : q'.memUsageCurrent = q.memUsageCurrent)
    (hm : q'.memSizeCurrent = q.memSizeCurrent) (k : Side) : q'.Met k = q.Met k := by
  funext n
  cases k <;> simp only [QueueT.Met, hu, hm]

/-- A step between points that concern neither condition variable, with the counter
    unchanged. -/
theorem waits_other {p : Pc} (hu : o.q.memUsageCurrent = q.memUsageCurrent)
    (hm : o.q.memSizeCurrent = q.memSizeCurrent) (hp : ∀ k, p.phase k ≠ .pending)
    (hp' : ∀ k, o.pc.phase k = .other) (k : Side) : o.Waits q p k := by
  unfold Outcome.Waits
  rw [hp' k, met_congr hu hm k]
  exact Steps.to_other (fun _ => id) fun h => absurd h (hp k)

/-- Taking a mutex concerns no condition variable. -/
theorem waits_lockThen {k' : Side} {p p' : Pc} (h : lockThen q k' t p' = some o)
    (hp : ∀ k, p.phase k ≠ .pending) (hp' : ∀ k, p'.phase k = .other) (k : Side) :
    o.Waits q p k := by
  obtain ⟨hq, hpc, _⟩ := lockThen_some h
  refine waits_other ?_ ?_ hp (by rw [hpc]; exact hp') k
  · rw [hq]; cases k' <;> rfl
  · rw [hq]; cases k' <;> rfl

/-- A producer waits only after a failed test, and every use of memory is followed by the
    broadcast to the consumers. -/
theorem stepWrite_waits {e : Entry} {timed : Bool} {p : WPc} {v : RView} (hcap : cap < 2 ^ 64)
    (hsize : q.memSizeCurrent = cap) (hok : p = .addUsage → q.Shows cap (p.view e) v)
    (hk : p = .addUsage → headerSize + e.buf.length < cap)
    (h : stepWrite q t e timed p = some o) : ∀ k, o.Waits q (.write e timed p) k := by
  cases p
  case lock => exact waits_lockThen h (by rintro (_ | _) ⟨⟩) (by rintro (_ | _) <;> rfl)
  case woken timedOut => exact waits_lockThen h (by rintro (_ | _) ⟨⟩) (by rintro (_ | _) <;> rfl)
  case test =>
    simp only [stepWrite, goto] at h
    split at h
    · -- the test has failed: there is no room
      rename_i hlt
      cases h
      rintro (_ | _)
      · exact Steps.to_other (fun _ => id) (by rintro ⟨⟩)
      · refine ⟨?_, by rintro _ ⟨⟩, Or.inr fun _ => id, by rintro ⟨⟩⟩
        intro n hn hroom
        cases hn
        exact absurd hroom (Nat.not_le.mpr hlt)
    · cases h
      exact waits_other rfl rfl (by rintro (_ | _) ⟨⟩) (by rintro (_ | _) <;> rfl)
  case wait =>
    cases h
    rintro (_ | _)
    · exact Steps.to_other (fun _ => id) (by rintro ⟨⟩)
    · refine ⟨by rintro _ ⟨⟩, ?_, Or.inr fun _ => id, by rintro ⟨⟩⟩
      intro n hn
      cases hn
      exact Or.inl rfl
  case addUsage =>
    cases h
    rintro (_ | _)
    · exact Steps.to_pending
    · refine Steps.to_other ?_ (by rintro ⟨⟩)
      -- more used memory, so less room
      intro n hn
      have hsz : e.entrySize = headerSize + e.buf.length := by
        have := hk rfl
        exact entrySize_eq (by omega)
      have hle : q.memUsageCurrent + e.encode.length ≤ cap := (hok rfl).usage_le
      have hsum : sizeAdd q.memUsageCurrent e.entrySize =
          q.memUsageCurrent + e.encode.length := by
        rw [sizeAdd, hsz, ← length_encode, Nat.mod_eq_of_lt (by omega)]
      have hn' : n ≤ sizeSub q.memSizeCurrent (sizeAdd q.memUsageCurrent e.entrySize) := hn
      rw [hsum, hsize, sizeSub, if_pos hle] at hn'
      rw [QueueT.Met, hsize, sizeSub, if_pos (by omega)]
      omega
  case broadcast =>
    cases h
    rintro (_ | _)
    · exact Steps.to_other (fun _ => id) (fun _ => rfl)
    · exact Steps.to_other (fun _ => id) (by rintro ⟨⟩)
  case testUsageMax | storeUsageMax | unlock =>
    -- the broadcast stays due
    simp only [stepWrite, goto] at h
    repeat' split at h
    all_goals
      cases h
      rintro (_ | _)
      · exact Steps.to_pending
      · exact Steps.to_other (fun _ => id) (by rintro ⟨⟩)
  all_goals
    simp only [stepWrite, goto] at h
    repeat' split at h
    all_goals
      first
      | cases h; done
      | cases h
        exact waits_other rfl rfl (by rintro (_ | _) ⟨⟩) (by rintro (_ | _) <;> rfl)

/-- A consumer waits only after a failed test, and every release of memory is followed by the
    broadcast to the producers. -/
theorem stepRead_waits {timed : Bool} {p : RPc} {w : WView}
    (hok : p.inSection = true → q.Shows cap w p.view)
    (h : stepRead q t timed p = some o) : ∀ k, o.Waits q (.read timed p) k := by
  cases p
  case lock => exact waits_lockThen h (by rintro (_ | _) ⟨⟩) (by rintro (_ | _) <;> rfl)
  case woken timedOut => exact waits_lockThen h (by rintro (_ | _) ⟨⟩) (by rintro (_ | _) <;> rfl)
  case test =>
    simp only [stepRead, goto] at h
    split at h
    · -- the test has failed: there is no used memory
      rename_i hzero
      cases h
      rintro (_ | _)
      · refine ⟨?_, by rintro _ ⟨⟩, Or.inr fun _ => id, by rintro ⟨⟩⟩
        intro c _ hdata
        exact absurd hzero hdata
      · exact Steps.to_other (fun _ => id) (by rintro ⟨⟩)
    · cases h
      exact waits_other rfl rfl (by rintro (_ | _) ⟨⟩) (by rintro (_ | _) <;> rfl)
  case wait =>
    cases h
    rintro (_ | _)
    · refine ⟨by rintro _ ⟨⟩, ?_, Or.inr fun _ => id, by rintro ⟨⟩⟩
      intro n hn
      cases hn
      exact Or.inl rfl
    · exact Steps.to_other (fun _ => id) (by rintro ⟨⟩)
  case subUsage hdr buf =>
    cases h
    rintro (_ | _)
    · refine Steps.to_other ?_ (by rintro ⟨⟩)
      -- the entry being read is still counted, so there was used memory before
      intro c _
      obtain ⟨e, _, _, _, hle⟩ := Ok.copied (hok rfl)
      rw [length_encode, headerSize] at hle
      show q.memUsageCurrent ≠ 0
      omega
    · exact Steps.to_pending
  case unlock hdr buf =>
    cases h
    rintro (_ | _)
    · exact Steps.to_other (fun _ => id) (by rintro ⟨⟩)
    · exact Steps.to_pending
  case broadcast hdr buf =>
    cases h
    rintro (_ | _)
    · exact Steps.to_other (fun _ => id) (by rintro ⟨⟩)
    · exact Steps.to_other (fun _ => id) (fun _ => rfl)
  all_goals
    simp only [stepRead, goto] at h
    repeat' split at h
    all_goals
      first
      | cases h; done
      | cases h
        exact waits_other rfl rfl (by rintro (_ | _) ⟨⟩) (by rintro (_ | _) <;> rfl)

/-- Outside `queue_read` and `queue_write` nobody waits on these conditions or owes a broadcast
    because of them. -/
theorem Pc.phase_elsewhere {p : Pc} (h : p.elsewhere = true) (k : Side) : p.phase k = .other := by
  cases p with
  | write e timed p => cases h
  | read timed p => cases h
  | _ => cases k <;> rfl

/-- Steps outside `queue_read` and `queue_write` concern no waiter. -/
theorem Outcome.Quiet.waits {p : Pc} (h : o.Quiet q) (hp : p.elsewhere = true) (k : Side) :
    o.Waits q p k := by
  obtain ⟨hs, _, hm, hp'⟩ := h
  refine waits_other hs.2.1 hm ?_ (Pc.phase_elsewhere hp') k
  intro k' hk'
  rw [Pc.phase_elsewhere hp k'] at hk'
  cases hk'

/-- Waking up by oneself meets nobody's need. -/
theorem stepWake_waits {timedOut : Bool} {p : Pc} (h : stepWake q timedOut p = some o) :
    ∀ k, o.Waits q p k := by
  rcases stepWake_some h with ⟨e, timed, rfl, rfl⟩ | ⟨timed, rfl, rfl⟩ | ⟨k, rfl, rfl⟩
  all_goals exact waits_other rfl rfl (by rintro (_ | _) ⟨⟩) (by rintro (_ | _) <;> rfl)

/-- What any step means for the waiters. -/
theorem outcome_waits {s : State ι} {a : Act} (hcap : cap < 2 ^ 64) (hg : Good cap s)
    (h : outcome s.q t (s.pc t) a = some o) : ∀ k, o.Waits s.q (s.pc t) k := by
  rcases (outcome_some h).2 with ⟨c, -, hp, rfl⟩ | ⟨-, hgo⟩ | ⟨timedOut, -, hwake⟩
  · rw [hp]
    cases c <;> exact waits_other rfl rfl (by rintro (_ | _) ⟨⟩) (by rintro (_ | _) <;> rfl)
  · simp only [stepGo] at hgo
    have hk := hg.knows t
    cases hp : s.pc t with
    | idle => rw [hp] at hgo; cases hgo
    | write e timed p =>
      rw [hp] at hgo hk
      refine stepWrite_waits hcap hg.size (v := s.rview) ?_ ?_ hgo
      · rintro rfl
        exact hg.shows_write hp rfl
      · rintro rfl
        exact hk.2 rfl
    | read timed p =>
      rw [hp] at hgo
      exact stepRead_waits (hg.shows_read hp) hgo
    -- ==> these three do not touch the ring
    | new k p =>
      rw [hp] at hgo
      exact (stepNew_quiet hgo).waits rfl
    | free k p =>
      rw [hp] at hgo
      exact (stepFree_quiet hgo).waits rfl
    | destroy p =>
      rw [hp] at hgo
      exact (stepDestroy_quiet hgo).waits rfl
  · exact stepWake_waits hwake

/-- A broadcast that is due to a side is sent by the other side's last step, not before. -/
theorem broadcasts_of_signal {p : Pc} {a : Act} {k : Side} (h : outcome q t p a = some o)
    (hs : o.signal = some k) (hp : p.phase k = .pending) : a = .go ∧ p.broadcasts k := by
  rcases (outcome_some h).2 with ⟨c, -, rfl, -⟩ | ⟨rfl, hgo⟩ | ⟨timedOut, -, hwake⟩
  · cases k <;> cases hp
  · refine ⟨rfl, ?_⟩
    cases k with
    -- ==> a producer owes the consumers a broadcast
    | read =>
      cases p with
      -- ==> a consumer owes the producers one
      | write e timed p =>
        cases p
        case broadcast => exact ⟨e, timed, rfl⟩
        all_goals
          first
          | cases hp; done
          | simp only [stepGo, stepWrite, goto] at hgo
            try split at hgo
            all_goals
              cases hgo
              cases hs
      | read timed p => cases p <;> cases hp
      | _ => cases hp
    | write =>
      cases p with
      | read timed p =>
        cases p
        case broadcast hdr buf => exact ⟨timed, hdr, buf, rfl⟩
        case unlock hdr buf =>
          cases hgo
          cases hs
        all_goals cases hp
      | write e timed p => cases p <;> cases hp
      | _ => cases hp
  · rcases stepWake_some hwake with ⟨e, timed, rfl, -⟩ | ⟨timed, rfl, -⟩ | ⟨k', rfl, -⟩ <;>
      cases k <;> cases hp

/-! ### Runs -/

/-- Both condition variables are safe. -/
def State.Wakes (s : State ι) : Prop := ∀ k, Safe (fun u => (s.pc u).phase k) (s.q.Met k)

/-- Nobody waits for a new queue. -/
theorem wakes_queueCreate (size : ℕ) : (queueCreate ι size).Wakes := by
  intro k t c hc
  cases k <;> rcases hc with hc | hc <;> cases hc

section
variable [DecidableEq ι] {s : State ι}

/-- The phases after a step are those of the library: the thread's own has changed, and a
    broadcast has woken the sleepers. -/
theorem phase_apply (k : Side) : (fun u => ((s.apply t o).pc u).phase k) =
    after (fun u => (s.pc u).phase k) t (o.pc.phase k) (o.signal = some k) := by
  funext u
  by_cases hu : u = t
  · subst hu
    simp [State.apply, after]
  · simp [State.apply, after, Function.update_of_ne hu, phase_signalled]

/-- **Step.**  A step that is not a missed broadcast keeps both condition variables safe. -/
theorem wakes_step {s' : State ι} {l : ι × Act} (hcap : cap < 2 ^ 64) (hg : Good cap s)
    (hw : s.Wakes) (hmiss : ∀ k, ¬ MissedOn k s l) (h : step s l = some s') : s'.Wakes := by
  obtain ⟨o, ho, rfl⟩ := Option.map_eq_some_iff.mp h
  intro k
  rw [phase_apply]
  refine (hw k).step (outcome_waits hcap hg ho k) ?_
  intro hs hp hm
  obtain ⟨ha, hpc⟩ := broadcasts_of_signal ho (by simpa using hs) hp
  exact hmiss k ⟨ha, hpc, hm⟩

/-- Only a queue that still exists takes steps. -/
theorem not_freed_of_step {s' : State ι} {l : ι × Act} (h : step s l = some s') :
    s.q.freed = false := by
  obtain ⟨o, ho, -⟩ := Option.map_eq_some_iff.mp h
  exact (outcome_some ho).1

/-- After a missed broadcast, the next step of the thread that missed it loses the wake-up. -/
theorem lost_of_missed {s' : State ι} {l : ι × Act} {k : Side} (h : step s l = some s')
    (hm : MissedOn k s l) : ∃ u s'', step s' (u, .go) = some s'' ∧ s''.LostOn k := by
  obtain ⟨t, a⟩ := l
  obtain ⟨ha, hbroadcasts, hm⟩ := hm
  simp only at ha hbroadcasts hm
  subst ha
  have hf := not_freed_of_step h
  obtain ⟨hpend, o, ho, hsignal, hother, hfreed, hmet⟩ := broadcast_step hbroadcasts s.q t
  rw [step_go hf rfl ho] at h
  cases h
  -- some thread has tested and not yet gone to sleep
  obtain ⟨u, n, hut, htested, hlost⟩ := hm.lost hpend
  obtain ⟨hstays, hsleeps⟩ := sleeps_of_tested (ι := ι) htested
  obtain ⟨o', ho', hsignal', hasleep, hmet'⟩ := hsleeps o.q u
  have hpu : (s.apply t o).pc u = s.pc u := by
    simp [State.apply, Function.update_of_ne hut, hsignal, hstays]
  refine ⟨u, _, step_go (hfreed.trans hf) hpu ho', ?_⟩
  unfold State.LostOn
  rw [phase_apply, phase_apply, hsignal, hsignal', hother, hasleep,
    show ((s.apply t o).apply u o').q.Met k = s.q.Met k from (hmet' k).trans (hmet k)]
  simpa using hlost

/-- **Run.**  Without missed broadcasts both condition variables stay safe. -/
theorem wakes_run {h : List (State ι × ι × Act)} (hcap : cap < 2 ^ 64)
    (hr : Run step (queueCreate ι cap) h s)
    (hmiss : ∀ p ∈ h, ∀ k, ¬ MissedOn k p.1 p.2) : s.Wakes := by
  have hinv : Good cap s ∧ s.Wakes := by
    refine hr.invariant (fun s l => ∀ k, ¬ MissedOn k s l) (fun s => Good cap s ∧ s.Wakes)
      ⟨good_queueCreate cap, wakes_queueCreate cap⟩ ?_ hmiss
    rintro s l s' ⟨hg, hw⟩ hm hs
    exact ⟨good_step hcap hg hs, wakes_step hcap hg hw hm hs⟩
  exact hinv.2

/-- **Lost wake-ups.**  In a run without missed broadcasts no thread sleeps on what is already
    there, unless a broadcast is due; and after any missed broadcast one more step leads to a
    state where a thread does. -/
theorem no_lost_wakeup {h : List (State ι × ι × Act)} (hcap : cap < 2 ^ 64)
    (hr : Run step (queueCreate ι cap) h s) :
    ((∀ p ∈ h, ¬ MissedRead p.1 p.2 ∧ ¬ MissedWrite p.1 p.2) → ¬ s.LostRead ∧ ¬ s.LostWrite) ∧
    (∀ l s', step s l = some s' → MissedRead s l ∨ MissedWrite s l →
      ∃ u s'', step s' (u, .go) = some s'' ∧ (s''.LostRead ∨ s''.LostWrite)) := by
  constructor
  · intro hmiss
    have hw := wakes_run hcap hr (by
      rintro p hp (_ | _)
      · exact (hmiss p hp).1
      · exact (hmiss p hp).2)
    exact ⟨(hw .read).not_lost, (hw .write).not_lost⟩
  · rintro l s' hs (hm | hm)
    · obtain ⟨u, s'', hs'', hlost⟩ := lost_of_missed hs hm
      exact ⟨u, s'', hs'', Or.inl hlost⟩
    · obtain ⟨u, s'', hs'', hlost⟩ := lost_of_missed hs hm
      exact ⟨u, s'', hs'', Or.inr hlost⟩

end

/-! ### Two threads

Thread `false` reads, thread `true` writes one byte; neither call has a timeout.  The
consumer finds the queue empty.  If it falls asleep before the producer broadcasts, the
broadcast wakes it; if it falls asleep only afterwards, nothing does. -/

/-- The consumer's steps up to its failed test. -/
def failedTest : List (Bool × Act) :=
  [(false, .call (.read false)), (false, .go), (false, .go)]

/-- All steps of the producer. -/
def oneByte : List (Bool × Act) :=
  (true, .call (.write ⟨[7], 0⟩ false)) :: List.replicate 31 (true, .go)

/-- The thread that does not move is not between its test and its sleep. -/
def calm (s : State Bool) (l : Bool × Act) : Bool :=
  match s.pc (!l.1) with
  | .read _ .wait | .write _ _ .wait => false
  | _ => true

/-- Such a step is no missed broadcast: there is nobody to miss it. -/
theorem not_missed_of_calm {s : State Bool} {l : Bool × Act} (h : calm s l = true) (k : Side) :
    ¬ MissedOn k s l := by
  rintro ⟨-, hbroadcasts, ⟨u, n, htested, -⟩, -⟩
  have hpend := (broadcast_step hbroadcasts s.q l.1).1
  have hul : u = !l.1 := by
    have hne : u ≠ l.1 := by
      rintro rfl
      exact absurd (hpend.symm.trans htested) (by rintro ⟨⟩)
    revert hne
    cases u <;> cases l.1 <;> simp
  rw [hul] at htested
  -- the thread that has tested is at its wait, which a calm step excludes
  have hwait : (∃ timed, s.pc (!l.1) = .read timed .wait) ∨
      ∃ e timed, s.pc (!l.1) = .write e timed .wait := wait_of_tested htested
  rcases hwait with ⟨timed, hp⟩ | ⟨e, timed, hp⟩ <;> simp [calm, hp] at h

/-- The consumer sleeps before the producer broadcasts, and is woken. -/
theorem no_lost_wakeup_woken :
    ∃ h s, Run step (queueCreate Bool 64) h s ∧ s.pc false = .read false (.woken false) ∧
      ¬ s.LostRead ∧ ¬ s.LostWrite := by
  obtain ⟨h, s, hr, hcalm, hwoken⟩ := exists_run_of_play step (queueCreate Bool 64) calm
    (fun s => s.pc false = .read false (.woken false))
    (failedTest ++ [(false, .go)] ++ oneByte) (by decide +kernel)
  refine ⟨h, s, hr, by simpa using hwoken, ?_⟩
  exact (no_lost_wakeup (by decide) hr).1
    fun p hp => ⟨not_missed_of_calm (hcalm p hp) .read, not_missed_of_calm (hcalm p hp) .write⟩

/-- The state after the missed broadcast: the consumer sleeps, and the producer has
    returned. -/
def lostEnd (s : State Bool) : Bool :=
  s.pc false = .read false .asleep && s.pc true = .idle && s.q.memUsageCurrent != 0

/-- In it a wake-up is lost. -/
theorem lostRead_of_lostEnd {s : State Bool} (h : lostEnd s = true) : s.LostRead := by
  simp only [lostEnd, Bool.and_eq_true, decide_eq_true_eq, bne_iff_ne] at h
  obtain ⟨⟨hf, ht⟩, hu⟩ := h
  refine ⟨false, 0, by simp [hf, Pc.phase], hu, ?_⟩
  rintro ⟨u, hpend⟩
  cases u
  · simp [hf, Pc.phase] at hpend
  · simp [ht, Pc.phase] at hpend

/-- The broadcast falls between the consumer's test and its sleep. -/
theorem lost_wakeup_reachable :
    ∃ h s, Run step (queueCreate Bool 64) h s ∧ s.LostRead := by
  obtain ⟨h, s, hr, -, hbad⟩ := exists_run_of_play step (queueCreate Bool 64)
    (fun _ _ => true) lostEnd (failedTest ++ oneByte ++ [(false, .go)])
    (by decide +kernel)
  exact ⟨h, s, hr, lostRead_of_lostEnd hbad⟩

end Niuchacz.Queue
