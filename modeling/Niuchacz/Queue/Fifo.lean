import Niuchacz.Queue.View

namespace Niuchacz.Queue

open Lib.Transition

/-!
# First in, first out, exactly once

The invariant of the running queue and what follows from it:

* `Pc.Knows`, `ReadReturn.Honest` — what a thread's local variables and the results already
  given to callers have to do with the entries stored.
* `Good` — the invariant: mutual exclusion, a window for the views of the two mutex owners,
  and the two facts above.  `good_apply` keeps it along every step of every thread.
* `solo_roundtrip` — whatever fits can be written and read back.
* `queue_fifo` — completed reads deliver the stored payloads in order, each once, and the
  value a read returns for them.
-/

variable {ι : Type} {q : QueueT ι} {t : ι} {o : Outcome ι} {cap : ℕ}

/-! ### Local knowledge -/

/-- The producer has got past the size test and the checksum: it goes on to store its entry. -/
def WPc.stores : WPc → Bool
  | .entry | .crc | .fault => false
  | _ => true

/-- What a thread in the middle of a call can rely on.  A producer past the size test knows that
    the size of its entry, possibly wrapped around, is below the capacity; past the checksum it
    knows that the size has not wrapped around. -/
def Pc.Knows (cap : ℕ) (acc : List Entry) (comp : List (List UInt8)) : Pc → Prop
  | .write e _ p =>
      (p = .crc → e.entrySize < cap) ∧ (p.stores = true → headerSize + e.buf.length < cap)
  | .read _ (.bail ret) => ret ≠ QUEUE_RET_ERROR
  | .read _ (.unlock hdr buf) => ∃ e ∈ acc, hdr = e.header ∧ buf = e.buf
  | .read _ (.broadcast hdr buf) | .read _ (.ret hdr buf) =>
      buf ∈ comp ∧ ∃ e ∈ acc, hdr = e.header ∧ buf = e.buf
  | _ => True

/-- A finished read that copied a payload copied a completed one and returned its length as
    an `int`; any other finished read reported a timeout or the destruction of the queue. -/
def ReadReturn.Honest (comp : List (List UInt8)) (r : ReadReturn) : Prop :=
  match r.payload with
  | some buf => buf ∈ comp ∧ r.ret = toInt buf.length
  | none => r.ret ≠ QUEUE_RET_ERROR

section
variable {acc acc' : List Entry} {comp comp' : List (List UInt8)}

/-- Knowledge about stored entries survives when more are stored. -/
theorem Pc.Knows.mono {p : Pc} (h : p.Knows cap acc comp) (ha : acc <+: acc')
    (hc : comp <+: comp') : p.Knows cap acc' comp' := by
  cases p with
  | read timed p =>
    cases p with
    | unlock hdr buf =>
      obtain ⟨e, he, hb⟩ := h
      exact ⟨e, ha.subset he, hb⟩
    | broadcast hdr buf =>
      obtain ⟨hm, e, he, hb⟩ := h
      exact ⟨hc.subset hm, e, ha.subset he, hb⟩
    | ret hdr buf =>
      obtain ⟨hm, e, he, hb⟩ := h
      exact ⟨hc.subset hm, e, ha.subset he, hb⟩
    | _ => exact h
  | _ => exact h

/-- Being woken does not change what a thread knows. -/
theorem Pc.Knows.signalled {p : Pc} (h : p.Knows cap acc comp) (g : Option Side) :
    (p.signalled g).Knows cap acc comp := by
  cases g with
  | none => exact h
  | some k =>
    simp only [Pc.signalled, Pc.wake]
    split
    · split
      · exact ⟨by rintro ⟨⟩, fun _ => h.2 rfl⟩
      · exact h
    · split <;> trivial
    · trivial
    · exact h

/-- Outside of the two functions there is nothing to know. -/
theorem Pc.knows_elsewhere {p : Pc} (h : p.elsewhere = true) : p.Knows cap acc comp := by
  cases p <;> trivial

theorem ReadReturn.Honest.mono {r : ReadReturn} (h : r.Honest comp) (hc : comp <+: comp') :
    r.Honest comp' := by
  unfold ReadReturn.Honest at h ⊢
  split
  · rename_i buf hb
    rw [hb] at h
    exact ⟨hc.subset h.1, h.2⟩
  · rename_i hb
    rwa [hb] at h

end

/-! ### What steps record -/

/-- What the steps of `queue_write` do to the size and to the bookkeeping. -/
theorem stepWrite_log {e : Entry} {timed : Bool} {p : WPc}
    (h : stepWrite q t e timed p = some o) :
    o.q.memSizeCurrent = q.memSizeCurrent ∧ q.accepted <+: o.q.accepted ∧
      o.q.completed = q.completed ∧ o.q.readReturns = q.readReturns := by
  cases p
  case lock =>
    rw [(lockThen_some h).1]
    exact ⟨rfl, List.prefix_rfl, rfl, rfl⟩
  case woken timedOut =>
    rw [(lockThen_some h).1]
    exact ⟨rfl, List.prefix_rfl, rfl, rfl⟩
  -- ==> the message is accepted with the addition to `_stats_MemUsageCurrent`
  case addUsage =>
    cases h
    exact ⟨rfl, List.prefix_append _ _, rfl, rfl⟩
  all_goals
    simp only [stepWrite, goto] at h
    repeat' split at h
    all_goals
      cases h
      try exact ⟨rfl, List.prefix_rfl, rfl, rfl⟩

/-- A producer with an entry that fits knows all it needs. -/
theorem Pc.knows_write {e : Entry} (hcap : cap < 2 ^ 64) (hfit : headerSize + e.buf.length < cap)
    (acc : List Entry) (comp : List (List UInt8)) (timed : Bool) (p : WPc) :
    Pc.Knows cap acc comp (.write e timed p) :=
  ⟨fun _ => (entrySize_eq (hfit.trans hcap)).trans_lt hfit, fun _ => hfit⟩

/-- The size test and the checksum tell a producer that its entry fits: an entry that is too large
    goes no further than the test, and one whose size wraps around no further than the checksum. -/
theorem stepWrite_knows {e : Entry} {timed : Bool} {p : WPc} (hcap : cap < 2 ^ 64)
    (hsize : q.memSizeCurrent = cap) {acc : List Entry} {comp : List (List UInt8)}
    (hk : Pc.Knows cap acc comp (.write e timed p)) (h : stepWrite q t e timed p = some o)
    (acc' : List Entry) (comp' : List (List UInt8)) : o.pc.Knows cap acc' comp' := by
  cases hp : p.stores with
  -- ==> the size of the entry is known and is not forgotten
  | true =>
    rcases stepWrite_pc h with hpc | ⟨p', hpc⟩ <;> rw [hpc]
    · trivial
    · exact Pc.knows_write hcap (hk.2 hp) _ _ _ _
  | false =>
    cases p
    -- ==> the test against the capacity, with the size as it may have wrapped around
    case entry =>
      simp only [stepWrite, goto, hsize] at h
      split at h
      · cases h
        trivial
      · rename_i hlt
        cases h
        exact ⟨fun _ => not_le.mp hlt, by rintro ⟨⟩⟩
    -- ==> reading the whole buffer for the checksum shows that the size has not wrapped around
    case crc =>
      simp only [stepWrite, goto] at h
      split at h
      · rename_i hread
        cases h
        have hlt := hk.1 rfl
        rw [entrySize_eq (readable_iff.mp hread)] at hlt
        exact Pc.knows_write hcap hlt _ _ _ _
      · cases h
        exact ⟨by rintro ⟨⟩, by rintro ⟨⟩⟩
    case fault => cases h
    all_goals cases hp

/-- What the steps of `queue_read` do to the size and to the entries. -/
theorem stepRead_log {timed : Bool} {p : RPc} (h : stepRead q t timed p = some o) :
    o.q.memSizeCurrent = q.memSizeCurrent ∧ o.q.accepted = q.accepted ∧
      q.completed <+: o.q.completed := by
  cases p
  case lock =>
    rw [(lockThen_some h).1]
    exact ⟨rfl, rfl, List.prefix_rfl⟩
  case woken timedOut =>
    rw [(lockThen_some h).1]
    exact ⟨rfl, rfl, List.prefix_rfl⟩
  -- ==> the message is completed with the unlock
  case unlock hdr buf =>
    cases h
    exact ⟨rfl, rfl, List.prefix_append _ _⟩
  all_goals
    simp only [stepRead, goto] at h
    repeat' split at h
    all_goals
      cases h
      try exact ⟨rfl, rfl, List.prefix_rfl⟩

/-- A consumer hands its caller what it knows to be a stored payload. -/
theorem stepRead_knows {timed : Bool} {p : RPc} {w : WView} (hcap : cap < 2 ^ 64)
    (hok : p.inSection = true → q.Shows cap w p.view)
    (hfits : ∀ e ∈ q.accepted, headerSize + e.buf.length < cap)
    (hk : Pc.Knows cap q.accepted q.completed (.read timed p))
    (h : stepRead q t timed p = some o) :
    o.pc.Knows cap o.q.accepted o.q.completed ∧
      ∀ r ∈ o.q.readReturns, r ∈ q.readReturns ∨ r.Honest o.q.completed := by
  cases p
  case lock =>
    obtain ⟨hq, hpc, _⟩ := lockThen_some h
    rw [hq, hpc]
    exact ⟨trivial, fun r hr => Or.inl hr⟩
  case woken timedOut =>
    obtain ⟨hq, hpc, _⟩ := lockThen_some h
    rw [hq, hpc]
    exact ⟨trivial, fun r hr => Or.inl hr⟩
  case awake timedOut =>
    simp only [stepRead, goto] at h
    repeat' split at h
    all_goals
      cases h
      refine ⟨?_, fun r hr => Or.inl hr⟩
      first | trivial | (show _ ≠ _; decide)
  case bail ret =>
    cases h
    refine ⟨trivial, ?_⟩
    intro r hr
    rcases List.mem_append.mp hr with hr | hr
    · exact Or.inl hr
    · rw [List.mem_singleton] at hr
      rw [hr]
      exact Or.inr hk
  case subUsage hdr buf =>
    cases h
    -- from here on the caller's buffer is a stored payload
    obtain ⟨e, he, hh, hb, _⟩ := Ok.copied (hok rfl)
    exact ⟨⟨e, he, hh, hb⟩, fun r hr => Or.inl hr⟩
  case unlock hdr buf =>
    cases h
    exact ⟨⟨by simp [QueueT.setMutex], hk⟩, fun r hr => Or.inl hr⟩
  case broadcast hdr buf =>
    cases h
    exact ⟨hk, fun r hr => Or.inl hr⟩
  case ret hdr buf =>
    cases h
    obtain ⟨hm, e, he, rfl, rfl⟩ := hk
    refine ⟨trivial, ?_⟩
    intro r hr
    rcases List.mem_append.mp hr with hr | hr
    · exact Or.inl hr
    · rw [List.mem_singleton] at hr
      rw [hr]
      -- the size in the header is that of the payload
      have hfit := hfits e he
      exact Or.inr ⟨hm, readResult_header e (by omega)⟩
  all_goals
    simp only [stepRead, goto] at h
    repeat' split at h
    all_goals
      cases h
      try exact ⟨trivial, fun r hr => Or.inl hr⟩

/-! ### The invariant -/

/-- The producer's side of a state. -/
def State.wview (s : State ι) : WView := s.viewOf .write Pc.wview WView.none

/-- The consumer's side of a state. -/
def State.rview (s : State ι) : RView := s.viewOf .read Pc.rview RView.none

/-- The invariant of a queue of `cap` bytes. -/
structure Good (cap : ℕ) (s : State ι) : Prop where
  exclusive : Exclusive s
  size : s.q.memSizeCurrent = cap
  shows : s.q.Shows cap s.wview s.rview
  knows : ∀ t, (s.pc t).Knows cap s.q.accepted s.q.completed
  returned : ∀ r ∈ s.q.readReturns, r.Honest s.q.completed

/-- A producer in its section is the one the window is about. -/
theorem Good.shows_write {s : State ι} {e : Entry} {timed : Bool} {p : WPc} (hg : Good cap s)
    (hp : s.pc t = .write e timed p) (hin : p.inSection = true) :
    s.q.Shows cap (p.view e) s.rview := by
  have hown : (s.pc t).holds .write = true := by rw [hp]; simpa [Pc.holds] using hin
  have hv : s.wview = p.view e := by
    rw [State.wview, viewOf_owner hg.exclusive hown, hp]
    rfl
  rw [← hv]
  exact hg.shows

/-- A consumer in its section is the one the window is about. -/
theorem Good.shows_read {s : State ι} {timed : Bool} {p : RPc} (hg : Good cap s)
    (hp : s.pc t = .read timed p) (hin : p.inSection = true) :
    s.q.Shows cap s.wview p.view := by
  have hown : (s.pc t).holds .read = true := by rw [hp]; simpa [Pc.holds] using hin
  have hv : s.rview = p.view := by
    rw [State.rview, viewOf_owner hg.exclusive hown, hp]
    rfl
  rw [← hv]
  exact hg.shows

/-- A new queue is good. -/
theorem good_queueCreate (cap : ℕ) : Good cap (queueCreate ι cap) where
  exclusive := exclusive_queueCreate cap
  size := rfl
  shows := ok_empty cap _
  knows := fun _ => trivial
  returned := by
    intro r hr
    cases hr

section
variable [DecidableEq ι] {s : State ι}

/-- Assemble the invariant after a step from what the step does. -/
theorem Good.of_step {a : Act} (hg : Good cap s) (h : outcome s.q t (s.pc t) a = some o)
    (hsize : o.q.memSizeCurrent = s.q.memSizeCurrent)
    (hacc : s.q.accepted <+: o.q.accepted) (hcomp : s.q.completed <+: o.q.completed)
    (hshows : o.q.Shows cap (s.apply t o).wview (s.apply t o).rview)
    (hknows : o.pc.Knows cap o.q.accepted o.q.completed)
    (hret : ∀ r ∈ o.q.readReturns, r ∈ s.q.readReturns ∨ r.Honest o.q.completed) :
    Good cap (s.apply t o) where
  exclusive := exclusive_apply hg.exclusive h
  size := hsize.trans hg.size
  shows := hshows
  knows := by
    intro u
    by_cases hu : u = t
    · subst hu
      simpa [State.apply] using hknows
    · simp only [State.apply, Function.update_of_ne hu]
      -- what the others know stays true while the logs grow
      exact ((hg.knows u).mono hacc hcomp).signalled o.signal
  returned := by
    intro r hr
    rcases hret r hr with hr | hr
    · exact (hg.returned r hr).mono hcomp
    · exact hr

/-- A step that leaves the store alone and shows nothing keeps both views. -/
theorem Good.shows_quiet {a : Act} (hg : Good cap s) (h : outcome s.q t (s.pc t) a = some o)
    (hs : SameStore s.q o.q) (hw : (s.pc t).wview = WView.none) (hw' : o.pc.wview = WView.none)
    (hr : (s.pc t).rview = RView.none) (hr' : o.pc.rview = RView.none) :
    o.q.Shows cap (s.apply t o).wview (s.apply t o).rview := by
  have h1 : (s.apply t o).wview = s.wview :=
    viewOf_apply_quiet isView_wview hg.exclusive h hw hw'
  have h2 : (s.apply t o).rview = s.rview :=
    viewOf_apply_quiet isView_rview hg.exclusive h hr hr'
  rw [h1, h2]
  exact hg.shows.congr hs

/-- Steps outside `queue_write` and `queue_read`. -/
theorem good_quiet {a : Act} (hg : Good cap s) (h : outcome s.q t (s.pc t) a = some o)
    (hp : (s.pc t).elsewhere = true) (hq : o.Quiet s.q) : Good cap (s.apply t o) := by
  obtain ⟨hs, hret, hsize, hp'⟩ := hq
  refine hg.of_step h hsize ?_ ?_ ?_ (Pc.knows_elsewhere hp') ?_
  · exact hs.2.2.1 ▸ List.prefix_rfl
  · exact hs.2.2.2 ▸ List.prefix_rfl
  · exact hg.shows_quiet h hs (Pc.wview_elsewhere hp) (Pc.wview_elsewhere hp')
      (Pc.rview_elsewhere hp) (Pc.rview_elsewhere hp')
  · intro r hr
    rw [hret] at hr
    exact Or.inl hr

/-- Steps of `queue_write`. -/
theorem good_write {e : Entry} {timed : Bool} {p : WPc} (hcap : cap < 2 ^ 64) (hg : Good cap s)
    (hp : s.pc t = .write e timed p) (hf : s.q.freed = false)
    (h : stepWrite s.q t e timed p = some o) : Good cap (s.apply t o) := by
  have hk : Pc.Knows cap s.q.accepted s.q.completed (.write e timed p) := by
    rw [← hp]
    exact hg.knows t
  have hout : outcome s.q t (s.pc t) .go = some o := by
    rw [hp]
    simpa [outcome, hf, stepGo] using h
  obtain ⟨hsize, hacc, hcomp, hret⟩ := stepWrite_log h
  have hr : (s.pc t).rview = RView.none := by rw [hp]; rfl
  refine hg.of_step hout hsize hacc (hcomp ▸ List.prefix_rfl) ?_ ?_ ?_
  · by_cases hin : p.inSection = true
    · -- the producer owns its side: the view of it moves, the consumer's stays
      have hown : (s.pc t).holds .write = true := by rw [hp]; simpa [Pc.holds] using hin
      have hw : (s.apply t o).wview = o.pc.wview :=
        viewOf_apply_owner isView_wview hg.exclusive hout hown
      have hv : (s.apply t o).rview = s.rview :=
        viewOf_apply_quiet isView_rview hg.exclusive hout hr (stepWrite_rview h)
      rw [hw, hv]
      have hstores : p.stores = true := by
        cases p <;> first | rfl | cases hin
      exact stepWrite_inside hcap hg.size (hk.2 hstores) hin h (hg.shows_write hp hin)
    · -- outside the section the step shows nothing, before or after
      rw [Bool.not_eq_true] at hin
      obtain ⟨hs, hw'⟩ := stepWrite_outside hin h
      have hw : (s.pc t).wview = WView.none :=
        isView_wview.outside _ (by rw [hp]; simpa [Pc.holds] using hin)
      exact hg.shows_quiet hout hs hw hw' hr (stepWrite_rview h)
  · exact stepWrite_knows hcap hg.size hk h _ _
  · intro r hr
    rw [hret] at hr
    exact Or.inl hr

/-- Steps of `queue_read`. -/
theorem good_read {timed : Bool} {p : RPc} (hcap : cap < 2 ^ 64) (hg : Good cap s)
    (hp : s.pc t = .read timed p) (hf : s.q.freed = false)
    (h : stepRead s.q t timed p = some o) : Good cap (s.apply t o) := by
  have hout : outcome s.q t (s.pc t) .go = some o := by
    rw [hp]
    simpa [outcome, hf, stepGo] using h
  have hk : Pc.Knows cap s.q.accepted s.q.completed (.read timed p) := by
    rw [← hp]
    exact hg.knows t
  obtain ⟨hsize, hacc, hcomp⟩ := stepRead_log h
  obtain ⟨hk', hret⟩ := stepRead_knows hcap (hg.shows_read hp) (fun e he => hg.shows.fits he) hk h
  have hw : (s.pc t).wview = WView.none := by rw [hp]; rfl
  refine hg.of_step hout hsize (hacc ▸ List.prefix_rfl) hcomp ?_ hk' hret
  by_cases hin : p.inSection = true
  · -- as for the producer, with the sides exchanged
    have hown : (s.pc t).holds .read = true := by rw [hp]; simpa [Pc.holds] using hin
    have hv : (s.apply t o).rview = o.pc.rview :=
      viewOf_apply_owner isView_rview hg.exclusive hout hown
    have hw' : (s.apply t o).wview = s.wview :=
      viewOf_apply_quiet isView_wview hg.exclusive hout hw (stepRead_wview h)
    rw [hv, hw']
    exact stepRead_inside hcap hg.size hin h (hg.shows_read hp hin)
  · rw [Bool.not_eq_true] at hin
    obtain ⟨hs, hr'⟩ := stepRead_outside hin h
    have hr : (s.pc t).rview = RView.none :=
      isView_rview.outside _ (by rw [hp]; simpa [Pc.holds] using hin)
    exact hg.shows_quiet hout hs hw (stepRead_wview h) hr hr'

/-- Entering a function: nothing happens yet. -/
theorem good_call {c : Call} (hg : Good cap s)
    (h : outcome s.q t (s.pc t) (.call c) = some o) : Good cap (s.apply t o) := by
  have hpc : s.pc t = .idle ∧ o = ⟨s.q, c.start, none⟩ := by
    simpa using (outcome_some h).2
  obtain ⟨hp, rfl⟩ := hpc
  refine hg.of_step h rfl List.prefix_rfl List.prefix_rfl ?_ ?_ (fun r hr => Or.inl hr)
  · refine hg.shows_quiet h ⟨rfl, rfl, rfl, rfl⟩ (by rw [hp]; rfl) ?_ (by rw [hp]; rfl) ?_
    · cases c <;> rfl
    · cases c <;> rfl
  · cases c with
    | write e timed => exact ⟨by rintro ⟨⟩, by rintro ⟨⟩⟩
    | _ => trivial

/-- Waking up by oneself: nothing happens yet. -/
theorem good_wake {timedOut : Bool} (hg : Good cap s)
    (h : outcome s.q t (s.pc t) (.wake timedOut) = some o) : Good cap (s.apply t o) := by
  have hw : stepWake s.q timedOut (s.pc t) = some o := by simpa using (outcome_some h).2
  have hk := hg.knows t
  -- a sleeping thread shows nothing, and waking up it only moves on
  have hquiet : o.q = s.q ∧ (s.pc t).wview = WView.none ∧ o.pc.wview = WView.none ∧
      (s.pc t).rview = RView.none ∧ o.pc.rview = RView.none ∧
      o.pc.Knows cap s.q.accepted s.q.completed := by
    rcases stepWake_some hw with ⟨e, timed, hp, rfl⟩ | ⟨timed, hp, rfl⟩ | ⟨k, hp, rfl⟩
    · rw [hp] at hk ⊢
      exact ⟨rfl, rfl, rfl, rfl, rfl, by rintro ⟨⟩, fun _ => hk.2 rfl⟩
    · rw [hp]
      exact ⟨rfl, rfl, rfl, rfl, rfl, trivial⟩
    · rw [hp]
      exact ⟨rfl, rfl, rfl, rfl, rfl, trivial⟩
  obtain ⟨hq, hw, hw', hr, hr', hk'⟩ := hquiet
  refine hg.of_step h (by rw [hq]) (hq ▸ List.prefix_rfl)
    (hq ▸ List.prefix_rfl) ?_ (by rw [hq]; exact hk') ?_
  · exact hg.shows_quiet h (by rw [hq]; exact ⟨rfl, rfl, rfl, rfl⟩) hw hw' hr hr'
  · intro r hr
    rw [hq] at hr
    exact Or.inl hr

/-- **Step.**  Every step of every thread keeps the invariant. -/
theorem good_apply {a : Act} (hcap : cap < 2 ^ 64) (hg : Good cap s)
    (h : outcome s.q t (s.pc t) a = some o) : Good cap (s.apply t o) := by
  cases a with
  | call c => exact good_call hg h
  | wake timedOut => exact good_wake hg h
  | go =>
    have hf := (outcome_some h).1
    have hgo : stepGo s.q t (s.pc t) = some o := by simpa using (outcome_some h).2
    cases hp : s.pc t with
    | idle => rw [hp] at hgo; cases hgo
    | write e timed p => exact good_write hcap hg hp hf (by rw [hp] at hgo; exact hgo)
    | read timed p => exact good_read hcap hg hp hf (by rw [hp] at hgo; exact hgo)
    -- ==> these three do not touch the ring
    | new k p =>
      exact good_quiet hg h (by rw [hp]; rfl) (stepNew_quiet (by rw [hp] at hgo; exact hgo))
    | free k p =>
      exact good_quiet hg h (by rw [hp]; rfl) (stepFree_quiet (by rw [hp] at hgo; exact hgo))
    | destroy p =>
      exact good_quiet hg h (by rw [hp]; rfl) (stepDestroy_quiet (by rw [hp] at hgo; exact hgo))

/-- **Step lemma.**  A step of any thread leads from a good state to a good one. -/
theorem good_step {s' : State ι} {l : ι × Act} (hcap : cap < 2 ^ 64) (hg : Good cap s)
    (h : step s l = some s') : Good cap s' := by
  obtain ⟨o, ho, rfl⟩ := Option.map_eq_some_iff.mp h
  exact good_apply hcap hg ho

/-- **Run.**  The invariant holds after every run. -/
theorem good_run {h : List (State ι × ι × Act)} (hcap : cap < 2 ^ 64)
    (hr : Run step (queueCreate ι cap) h s) : Good cap s :=
  hr.invariant (fun _ _ => True) (Good cap) (good_queueCreate cap)
    (fun _ _ _ hg _ hs => good_step hcap hg hs) (fun _ _ => trivial)

end

/-! ### A thread on its own

A single thread writes a message into the empty queue and reads it back.  The invariant
supplies what the loops need to know about the ring, so the argument only follows the
program counter.
-/

/-- The payload a label brings fits into the queue. -/
def Fits (cap : ℕ) : ι × Act → Prop
  | (_, .call (.write e _)) => headerSize + e.buf.length < cap
  | _ => True

/-- From every good state with `P` some run leads to a good state with `Q`. -/
def Reach (cap : ℕ) (P Q : State Unit → Prop) : Prop :=
  ∀ s, Good cap s → s.q.freed = false → P s →
    ∃ h s', Run step s h s' ∧ (∀ p ∈ h, Fits cap p.2) ∧ Good cap s' ∧ s'.q.freed = false ∧ Q s'

section
variable {P Q R : State Unit → Prop} {acc : List Entry} {comp : List (List UInt8)} {e : Entry}

/-- Nothing has to be done for what holds already. -/
theorem Reach.refl (h : ∀ s, P s → Q s) : Reach cap P Q :=
  fun s hg hf hp => ⟨[], s, Run.nil, by simp, hg, hf, h s hp⟩

theorem Reach.trans (h : Reach cap P Q) (h' : Reach cap Q R) : Reach cap P R := by
  intro s hg hf hp
  obtain ⟨h₁, s₁, hr₁, hfit₁, hg₁, hf₁, hq⟩ := h s hg hf hp
  obtain ⟨h₂, s₂, hr₂, hfit₂, hg₂, hf₂, hr⟩ := h' s₁ hg₁ hf₁ hq
  refine ⟨h₁ ++ h₂, s₂, hr₁.trans hr₂, ?_, hg₂, hf₂, hr⟩
  intro p hmem
  rcases List.mem_append.mp hmem with hmem | hmem
  · exact hfit₁ p hmem
  · exact hfit₂ p hmem

/-- One step of the thread. -/
theorem Reach.act (hcap : cap < 2 ^ 64) (a : Act) (hl : Fits cap ((), a))
    (h : ∀ s, Good cap s → s.q.freed = false → P s → ∃ o, outcome s.q () (s.pc ()) a = some o ∧
      o.q.freed = false ∧ Q (s.apply () o)) : Reach cap P Q := by
  intro s hg hf hp
  obtain ⟨o, ho, hfo, hq⟩ := h s hg hf hp
  have hs : step s ((), a) = some (s.apply () o) := by
    show (outcome s.q () (s.pc ()) a).map (s.apply ()) = _
    rw [ho]
    rfl
  refine ⟨_, _, Run.single hs, ?_, good_step hcap hg hs, hfo, hq⟩
  intro p hmem
  rw [List.mem_singleton] at hmem
  rw [hmem]
  exact hl

/-- The thread is at `p`, and this is what has been stored and read so far. -/
def Here (acc : List Entry) (comp : List (List UInt8)) (p : Pc) (s : State Unit) : Prop :=
  s.q.accepted = acc ∧ s.q.completed = comp ∧ s.pc () = p

/-- The step that the program determines at `p`. -/
theorem reach_go (hcap : cap < 2 ^ 64) {p : Pc}
    (h : ∀ s : State Unit, Good cap s → s.q.freed = false → s.q.accepted = acc →
      s.q.completed = comp → s.pc () = p → ∃ o, stepGo s.q () p = some o ∧
        o.q.freed = false ∧ Q (s.apply () o)) : Reach cap (Here acc comp p) Q := by
  refine Reach.act hcap .go trivial ?_
  rintro s hg hf ⟨ha, hc, hp⟩
  obtain ⟨o, ho, hrest⟩ := h s hg hf ha hc hp
  refine ⟨o, ?_, hrest⟩
  rw [hp]
  simpa [outcome, hf] using ho

/-- With one thread, a mutex that it does not hold is free. -/
theorem mutex_free {s : State Unit} (hx : Exclusive s) {k : Side}
    (hp : (s.pc ()).holds k = false) : s.q.mutex k = none := by
  cases hm : s.q.mutex k with
  | none => rfl
  | some u =>
    have := (hx k u).mp hm
    rw [hp] at this
    cases this

/-- A lone thread outside the section gets the mutex. -/
theorem reach_lock (hcap : cap < 2 ^ 64) {p p' : Pc} (k : Side) (hp : p.holds k = false)
    (hgo : ∀ q : QueueT Unit, stepGo q () p = lockThen q k () p') :
    Reach cap (Here acc comp p) (Here acc comp p') := by
  refine reach_go hcap ?_
  intro s hg hf ha hc hpc
  have hfree : s.q.mutex k = none := mutex_free hg.exclusive (by rw [hpc]; exact hp)
  refine ⟨⟨s.q.setMutex k (some ()), p', none⟩, ?_, ?_, ?_⟩
  · rw [hgo, lockThen, hfree]
    rfl
  · cases k <;> exact hf
  · cases k <;> exact ⟨ha, hc, rfl⟩

/-- With nothing under way, the used memory is what has been stored and not read. -/
theorem usage_of_here {s : State Unit} (hg : Good cap s) {p : Pc} (hpc : s.pc () = p)
    (hw : p.wview = WView.none) (hv : p.rview = RView.none) (unread : List Entry)
    (hacc : s.q.accepted.map Entry.buf = s.q.completed ++ unread.map Entry.buf) :
    s.q.memUsageCurrent = (stored unread).length := by
  have hwv : s.wview = WView.none := by
    unfold State.wview State.viewOf
    split
    · exact (congrArg Pc.wview hpc).trans hw
    · rfl
  have hrv : s.rview = RView.none := by
    unfold State.rview State.viewOf
    split
    · exact (congrArg Pc.rview hpc).trans hv
    · rfl
  have hok := hg.shows
  rw [hwv, hrv] at hok
  obtain ⟨front, rest, base, hwin⟩ := hok
  have hread : front.map Entry.buf = s.q.completed := by
    simpa [RView.released?] using hwin.read
  rw [hwin.split, List.map_append, hread] at hacc
  have hrest : rest.map Entry.buf = unread.map Entry.buf := List.append_cancel_left hacc
  -- equal payloads take equal room
  have hlen : ∀ xs : List Entry,
      (stored xs).length = ((xs.map Entry.buf).map fun b => headerSize + b.length).sum := by
    intro xs
    simp [stored, List.length_flatMap, Function.comp_def]
  rw [hwin.usage_eq, hlen, hlen, hrest]

/-- The header is written byte by byte. -/
theorem reach_writeHeader (hcap : cap < 2 ^ 64) (n i : ℕ) (hn : n + i = headerSize) :
    Reach cap (Here acc comp (.write e false (.header i)))
      (Here acc comp (.write e false (.data 0))) := by
  -- on the number of bytes still to write
  induction n generalizing i with
  | zero =>
    refine reach_go hcap ?_
    intro s hg hf ha hc hpc
    have hnone : e.header[i]? = none := by
      rw [List.getElem?_eq_none_iff, length_header]
      omega
    refine ⟨⟨s.q, .write e false (.data 0), none⟩, ?_, hf, ha, hc, rfl⟩
    simp [stepGo, stepWrite, hnone, goto]
  | succ n ih =>
    refine Reach.trans ?_ (ih (i + 1) (by omega))
    refine reach_go hcap ?_
    intro s hg hf ha hc hpc
    have hlt : i < e.header.length := by
      rw [length_header]
      omega
    have hsome : e.header[i]? = some e.header[i] := List.getElem?_eq_getElem hlt
    refine ⟨⟨{ s.q with ring := s.q.ring.putByte s.q.memSizeCurrent e.header[i] },
      .write e false (.header (i + 1)), none⟩, ?_, hf, ha, hc, rfl⟩
    simp [stepGo, stepWrite, hsome, goto]

/-- The payload is written byte by byte. -/
theorem reach_writeData (hcap : cap < 2 ^ 64) (n i : ℕ) (hn : n + i = e.buf.length) :
    Reach cap (Here acc comp (.write e false (.data i)))
      (Here acc comp (.write e false .addEntries)) := by
  -- over the bytes that are still to be copied
  induction n generalizing i with
  | zero =>
    refine reach_go hcap ?_
    intro s hg hf ha hc hpc
    have hnone : e.buf[i]? = none := by
      rw [List.getElem?_eq_none_iff]
      omega
    refine ⟨⟨s.q, .write e false .addEntries, none⟩, ?_, hf, ha, hc, rfl⟩
    simp [stepGo, stepWrite, hnone, goto]
  | succ n ih =>
    refine Reach.trans ?_ (ih (i + 1) (by omega))
    refine reach_go hcap ?_
    intro s hg hf ha hc hpc
    have hlt : i < e.buf.length := by omega
    have hsome : e.buf[i]? = some e.buf[i] := List.getElem?_eq_getElem hlt
    refine ⟨⟨{ s.q with ring := s.q.ring.putByte s.q.memSizeCurrent e.buf[i] },
      .write e false (.data (i + 1)), none⟩, ?_, hf, ha, hc, rfl⟩
    simp [stepGo, stepWrite, hsome, goto]

/-- A step that leads to a point which may depend on a value read from the queue. -/
theorem reach_exists {α : Type} {P : α → State Unit → Prop} (h : ∀ x, Reach cap (P x) Q) :
    Reach cap (fun s => ∃ x, P x s) Q := by
  rintro s hg hf ⟨x, hx⟩
  exact h x s hg hf hx

theorem Reach.or (h : Reach cap P R) (h' : Reach cap Q R) : Reach cap (fun s => P s ∨ Q s) R := by
  rintro s hg hf (hp | hq)
  · exact h s hg hf hp
  · exact h' s hg hf hq

/-- The test of a maximum, with or without the store that follows it. -/
theorem reach_max (hcap : cap < 2 ^ 64) {p store next : Pc} {max : QueueT Unit → ℕ} {n : ℕ}
    (htest : ∀ q : QueueT Unit,
      stepGo q () p = if n > max q then goto q store else goto q next)
    (hstore : Reach cap (Here acc comp store) (Here acc comp next)) :
    Reach cap (Here acc comp p) (Here acc comp next) := by
  refine Reach.trans (Q := fun s => Here acc comp store s ∨ Here acc comp next s) ?_
    (hstore.or (Reach.refl fun _ => id))
  refine reach_go hcap ?_
  intro s hg hf ha hc hpc
  by_cases hn : n > max s.q
  · refine ⟨⟨s.q, store, none⟩, ?_, hf, Or.inl ⟨ha, hc, rfl⟩⟩
    rw [htest, if_pos hn, goto]
  · refine ⟨⟨s.q, next, none⟩, ?_, hf, Or.inr ⟨ha, hc, rfl⟩⟩
    rw [htest, if_neg hn, goto]

/-- The statistics are updated and the entry is counted as used memory. -/
theorem reach_publish (hcap : cap < 2 ^ 64) :
    Reach cap (Here acc comp (.write e false .addEntries))
      (Here (acc ++ [e]) comp (.write e false .unlock)) := by
  have hentries : Reach cap (Here acc comp (.write e false .addEntries))
      (fun s => ∃ n, Here acc comp (.write e false (.testEntriesMax n)) s) :=
    reach_go hcap fun s hg hf ha hc hpc => ⟨_, rfl, hf, _, ha, hc, rfl⟩
  have hentriesMax : ∀ n, Reach cap (Here acc comp (.write e false (.testEntriesMax n)))
      (Here acc comp (.write e false .addUsage)) := fun n =>
    reach_max hcap (fun _ => rfl)
      (reach_go hcap fun s hg hf ha hc hpc => ⟨_, rfl, hf, ha, hc, rfl⟩)
  -- here the message is accepted; the two maxima may or may not be raised
  have husage : Reach cap (Here acc comp (.write e false .addUsage))
      (fun s => ∃ n, Here (acc ++ [e]) comp (.write e false (.testUsageMax n)) s) := by
    refine reach_go hcap ?_
    intro s hg hf ha hc hpc
    refine ⟨_, rfl, hf, _, ?_, hc, rfl⟩
    show s.q.accepted ++ [e] = acc ++ [e]
    rw [ha]
  have husageMax : ∀ n, Reach cap (Here (acc ++ [e]) comp (.write e false (.testUsageMax n)))
      (Here (acc ++ [e]) comp (.write e false .unlock)) := fun n =>
    reach_max hcap (fun _ => rfl)
      (reach_go hcap fun s hg hf ha hc hpc => ⟨_, rfl, hf, ha, hc, rfl⟩)
  exact hentries.trans ((reach_exists hentriesMax).trans (husage.trans (reach_exists husageMax)))

/-- A `queue_write` into a queue with room behind the unread messages, up to its broadcast. -/
theorem reach_append (hcap : cap < 2 ^ 64) (unread : List Entry)
    (hacc : acc.map Entry.buf = comp ++ unread.map Entry.buf)
    (hfit : headerSize + e.buf.length < cap)
    (hroom : (stored unread).length + (headerSize + e.buf.length) ≤ cap) :
    Reach cap (Here acc comp .idle) (Here (acc ++ [e]) comp (.write e false .broadcast)) := by
  have hsz : e.entrySize = headerSize + e.buf.length := entrySize_eq (by omega)
  have hcall : Reach cap (Here acc comp .idle) (Here acc comp (.write e false .entry)) := by
    refine Reach.act hcap (.call (.write e false)) hfit ?_
    rintro s hg hf ⟨ha, hc, hp⟩
    refine ⟨⟨s.q, .write e false .entry, none⟩, ?_, hf, ha, hc, rfl⟩
    simp [outcome, hf, hp, goto, Call.start]
  -- the entry fits an empty queue, and its buffer can be read
  have hentry : Reach cap (Here acc comp (.write e false .entry))
      (Here acc comp (.write e false .crc)) := by
    refine reach_go hcap ?_
    intro s hg hf ha hc hpc
    refine ⟨⟨s.q, .write e false .crc, none⟩, ?_, hf, ha, hc, rfl⟩
    have hlt : ¬ e.entrySize ≥ s.q.memSizeCurrent := by
      rw [hg.size, hsz]
      omega
    simp only [stepGo, stepWrite, if_neg hlt, goto]
  have hcrc : Reach cap (Here acc comp (.write e false .crc))
      (Here acc comp (.write e false .lock)) := by
    refine reach_go hcap ?_
    intro s hg hf ha hc hpc
    refine ⟨⟨s.q, .write e false .lock, none⟩, ?_, hf, ha, hc, rfl⟩
    simp only [stepGo, stepWrite, if_pos (readable_iff.mpr (hfit.trans hcap)), goto]
  have hlock : Reach cap (Here acc comp (.write e false .lock))
      (Here acc comp (.write e false .test)) := reach_lock hcap .write rfl fun _ => rfl
  -- there is room now, so the producer does not wait
  have htest : Reach cap (Here acc comp (.write e false .test))
      (Here acc comp (.write e false (.header 0))) := by
    refine reach_go hcap ?_
    intro s hg hf ha hc hpc
    have husage : s.q.memUsageCurrent = (stored unread).length :=
      usage_of_here hg hpc rfl rfl unread (by rw [ha, hc]; exact hacc)
    have hspace : ¬ sizeSub s.q.memSizeCurrent s.q.memUsageCurrent < e.entrySize := by
      rw [husage, hg.size, sizeSub, if_pos (by omega), hsz]
      omega
    refine ⟨⟨s.q, .write e false (.header 0), none⟩, ?_, hf, ha, hc, rfl⟩
    simp only [stepGo, stepWrite, if_neg hspace, goto]
  have hunlock : Reach cap (Here (acc ++ [e]) comp (.write e false .unlock))
      (Here (acc ++ [e]) comp (.write e false .broadcast)) :=
    reach_go hcap fun s hg hf ha hc hpc => ⟨_, rfl, hf, ha, hc, rfl⟩
  exact hcall.trans <| hentry.trans <| hcrc.trans <| hlock.trans <| htest.trans <|
    (reach_writeHeader hcap headerSize 0 rfl).trans <|
    (reach_writeData hcap e.buf.length 0 rfl).trans <|
    (reach_publish hcap).trans hunlock

/-- A `queue_write` into the empty queue, up to its broadcast. -/
theorem reach_store (hcap : cap < 2 ^ 64) (hfit : headerSize + e.buf.length < cap) :
    Reach cap (Here [] [] .idle) (Here [e] [] (.write e false .broadcast)) :=
  reach_append hcap [] rfl hfit (by simpa [stored] using hfit.le)

/-- A whole `queue_write` into the empty queue: it returns the length as an `int`. -/
theorem reach_write (hcap : cap < 2 ^ 64) (hfit : headerSize + e.buf.length < cap) :
    Reach cap (Here [] [] .idle)
      (fun s => Here [e] [] .idle s ∧ (e.buf, toInt e.buf.length) ∈ s.q.writeReturns) := by
  refine (reach_store hcap hfit).trans (reach_go hcap ?_)
  intro s hg hf ha hc hpc
  refine ⟨_, rfl, hf, ⟨ha, hc, rfl⟩, ?_⟩
  simp [State.apply, QueueT.logWrite]

/-- The header is read byte by byte. -/
theorem reach_readHeader (hcap : cap < 2 ^ 64) (n : ℕ) (hdr : List UInt8)
    (hn : n + hdr.length = headerSize) :
    Reach cap (Here acc comp (.read false (.header hdr)))
      (fun s => ∃ hdr', Here acc comp (.read false (.data hdr' [])) s) := by
  induction n generalizing hdr with
  | zero =>
    refine reach_go hcap ?_
    intro s hg hf ha hc hpc
    refine ⟨⟨s.q, .read false (.data hdr []), none⟩, ?_, hf, hdr, ha, hc, rfl⟩
    simp only [stepGo, stepRead, if_neg (show ¬ hdr.length < headerSize by omega), goto]
  | succ n ih =>
    have hbyte : Reach cap (Here acc comp (.read false (.header hdr)))
        (fun s => ∃ b, Here acc comp (.read false (.header (hdr ++ [b]))) s) := by
      refine reach_go hcap ?_
      intro s hg hf ha hc hpc
      refine ⟨⟨{ s.q with ring := s.q.ring.skipByte s.q.memSizeCurrent },
        .read false (.header (hdr ++ [s.q.ring.mem s.q.ring.tail])), none⟩, ?_, hf, _, ha, hc, rfl⟩
      simp only [stepGo, stepRead, if_pos (show hdr.length < headerSize by omega), goto]
    exact hbyte.trans (reach_exists fun b => ih (hdr ++ [b]) (by simp; omega))

/-- As many payload bytes are read as the header says. -/
theorem reach_readData (hcap : cap < 2 ^ 64) (n : ℕ) (hdr buf : List UInt8)
    (hn : n + buf.length = headerLen hdr) :
    Reach cap (Here acc comp (.read false (.data hdr buf)))
      (fun s => ∃ buf', Here acc comp (.read false (.subEntries hdr buf')) s) := by
  -- over the bytes that are still to be copied; which bytes they are does not matter here
  induction n generalizing buf with
  | zero =>
    refine reach_go hcap ?_
    intro s hg hf ha hc hpc
    refine ⟨⟨s.q, .read false (.subEntries hdr buf), none⟩, ?_, hf, buf, ha, hc, rfl⟩
    simp only [stepGo, stepRead, if_neg (show ¬ buf.length < headerLen hdr by omega), goto]
  | succ n ih =>
    have hbyte : Reach cap (Here acc comp (.read false (.data hdr buf)))
        (fun s => ∃ b, Here acc comp (.read false (.data hdr (buf ++ [b]))) s) := by
      refine reach_go hcap ?_
      intro s hg hf ha hc hpc
      refine ⟨⟨{ s.q with ring := s.q.ring.skipByte s.q.memSizeCurrent },
        .read false (.data hdr (buf ++ [s.q.ring.mem s.q.ring.tail])), none⟩, ?_, hf, _, ha, hc,
        rfl⟩
      simp only [stepGo, stepRead, if_pos (show buf.length < headerLen hdr by omega), goto]
    exact hbyte.trans (reach_exists fun b => ih (buf ++ [b]) (by simp; omega))

/-- A whole `queue_read` from a queue with one message. -/
theorem reach_read (hcap : cap < 2 ^ 64) :
    Reach cap (Here [e] [] .idle)
      (fun s => ∃ buf ret, s.q.accepted = [e] ∧ s.q.completed = [buf] ∧
        ⟨some buf, ret⟩ ∈ s.q.readReturns) := by
  have hcall : Reach cap (Here [e] [] .idle) (Here [e] [] (.read false .lock)) := by
    refine Reach.act hcap (.call (.read false)) trivial ?_
    rintro s hg hf ⟨ha, hc, hp⟩
    refine ⟨⟨s.q, .read false .lock, none⟩, ?_, hf, ha, hc, rfl⟩
    simp [outcome, hf, hp, goto, Call.start]
  have hlock : Reach cap (Here [e] [] (.read false .lock)) (Here [e] [] (.read false .test)) :=
    reach_lock hcap .read rfl fun _ => rfl
  -- there is a message, so the consumer does not wait
  have htest : Reach cap (Here [e] [] (.read false .test))
      (Here [e] [] (.read false (.header []))) := by
    refine reach_go hcap ?_
    intro s hg hf ha hc hpc
    have husage : s.q.memUsageCurrent = (stored [e]).length :=
      usage_of_here hg hpc rfl rfl [e] (by rw [ha, hc]; rfl)
    have hne : ¬ s.q.memUsageCurrent = 0 := by
      rw [husage]
      simp [stored, headerSize]
    refine ⟨⟨s.q, .read false (.header []), none⟩, ?_, hf, ha, hc, rfl⟩
    simp only [stepGo, stepRead, if_neg hne, goto]
  have hdata : ∀ hdr, Reach cap (Here [e] [] (.read false (.data hdr [])))
      (fun s => ∃ buf, Here [e] [] (.read false (.subEntries hdr buf)) s) := fun hdr =>
    reach_readData hcap (headerLen hdr) hdr [] rfl
  have hrelease : ∀ hdr buf, Reach cap (Here [e] [] (.read false (.subEntries hdr buf)))
      (Here [e] [] (.read false (.unlock hdr buf))) := fun hdr buf =>
    Reach.trans (Q := Here [e] [] (.read false (.subUsage hdr buf)))
      (reach_go hcap fun s hg hf ha hc hpc => ⟨_, rfl, hf, ha, hc, rfl⟩)
      (reach_go hcap fun s hg hf ha hc hpc => ⟨_, rfl, hf, ha, hc, rfl⟩)
  -- from here on the message is completed
  have hunlock : ∀ hdr buf, Reach cap (Here [e] [] (.read false (.unlock hdr buf)))
      (Here [e] [buf] (.read false (.broadcast hdr buf))) := by
    intro hdr buf
    refine reach_go hcap ?_
    intro s hg hf ha hc hpc
    refine ⟨_, rfl, hf, ha, ?_, rfl⟩
    show s.q.completed ++ [buf] = [buf]
    rw [hc]
    rfl
  have hret : ∀ hdr buf, Reach cap (Here [e] [buf] (.read false (.broadcast hdr buf)))
      (Here [e] [buf] (.read false (.ret hdr buf))) := fun hdr buf =>
    reach_go hcap fun s hg hf ha hc hpc => ⟨_, rfl, hf, ha, hc, rfl⟩
  have hdone : ∀ hdr buf, Reach cap (Here [e] [buf] (.read false (.ret hdr buf)))
      (fun s => ∃ buf ret, s.q.accepted = [e] ∧ s.q.completed = [buf] ∧
        ⟨some buf, ret⟩ ∈ s.q.readReturns) := by
    intro hdr buf
    refine reach_go hcap ?_
    intro s hg hf ha hc hpc
    refine ⟨_, rfl, hf, buf, readResult hdr buf, ha, hc, ?_⟩
    show _ ∈ s.q.readReturns ++ [_]
    simp
  exact hcall.trans <| hlock.trans <| htest.trans <|
    (reach_readHeader hcap headerSize [] rfl).trans <| reach_exists fun hdr =>
    (hdata hdr).trans <| reach_exists fun buf => (hrelease hdr buf).trans <|
    (hunlock hdr buf).trans <| (hret hdr buf).trans (hdone hdr buf)

/-- Every message that fits into a queue can be written to it and read back; the read returns
    the length of the message as an `int`. -/
theorem solo_roundtrip (hcap : cap < 2 ^ 64) (hfit : headerSize + e.buf.length < cap) :
    ∃ h s, Run step (queueCreate Unit cap) h s ∧ (∀ p ∈ h, Fits cap p.2) ∧
      s.q.completed = [e.buf] ∧ ⟨some e.buf, toInt e.buf.length⟩ ∈ s.q.readReturns := by
  obtain ⟨h, s, hr, hfits, hg, -, buf, ret, ha, hc, hmem⟩ :=
    ((reach_write hcap hfit).trans <| (Reach.refl fun _ hw => hw.1).trans <| reach_read hcap)
      (queueCreate Unit cap) (good_queueCreate cap) rfl ⟨rfl, rfl, rfl⟩
  have hprefix := hg.shows.completed_prefix
  rw [ha, hc] at hprefix
  have hbuf : buf = e.buf := by simpa using hprefix
  obtain ⟨-, hret⟩ := hg.returned _ hmem
  refine ⟨h, s, hr, hfits, by rw [hc, hbuf], ?_⟩
  rw [hbuf] at hmem hret
  rw [← hret]
  exact hmem

end

/-! ### Exactly once, in order -/

/-- The messages that have been stored and not yet read. -/
def QueueT.unread (q : QueueT ι) : List Entry := q.accepted.drop q.completed.length

theorem toInt_eq (n : ℕ) : toInt n = if (n : ℤ) % 4294967296 < 2147483648 then
    (n : ℤ) % 4294967296 else (n : ℤ) % 4294967296 - 4294967296 := rfl

/-- An `int` keeps the lengths below 2 GiB, and only these. -/
theorem toInt_eq_self_iff (n : ℕ) : toInt n = n ↔ n < 2 ^ 31 := by
  rw [toInt_eq]
  split <;> omega

/-- The lengths that are returned as `QUEUE_RET_ERROR`. -/
theorem toInt_eq_error_iff (n : ℕ) : toInt n = QUEUE_RET_ERROR ↔ n % 2 ^ 32 = 2 ^ 32 - 1 := by
  rw [toInt_eq, QUEUE_RET_ERROR]
  split <;> omega

/-- **First in, first out, exactly once.**  In every run of any number of threads on a queue of
    any capacity the payloads of completed reads are a prefix of the payloads stored.  A finished
    read that copied a payload copied one of these, and its result is the payload's length exactly
    below `2 ^ 31` bytes: from there on the conversion to `int` shows, and at lengths `2 ^ 32 - 1`
    modulo `2 ^ 32` the result is `QUEUE_RET_ERROR`.  No other read returns `QUEUE_RET_ERROR`. -/
theorem queue_fifo [DecidableEq ι] {h : List (State ι × ι × Act)} {s : State ι}
    (hcap : cap < 2 ^ 64) (hr : Run step (queueCreate ι cap) h s) :
    s.q.completed <+: s.q.accepted.map Entry.buf ∧
    (∀ r ∈ s.q.readReturns, ∀ buf, r.payload = some buf → buf ∈ s.q.completed ∧
      (r.ret = buf.length ↔ buf.length < 2 ^ 31) ∧
      (r.ret = QUEUE_RET_ERROR ↔ buf.length % 2 ^ 32 = 2 ^ 32 - 1)) ∧
    (∀ r ∈ s.q.readReturns, r.payload = none → r.ret ≠ QUEUE_RET_ERROR) := by
  have hg := good_run hcap hr
  refine ⟨hg.shows.completed_prefix, ?_, ?_⟩
  · intro r hmem buf hbuf
    have hh := hg.returned r hmem
    rw [ReadReturn.Honest, hbuf] at hh
    obtain ⟨hm, hret⟩ := hh
    rw [hret]
    exact ⟨hm, toInt_eq_self_iff _, toInt_eq_error_iff _⟩
  · intro r hmem hnone
    have hh := hg.returned r hmem
    rw [ReadReturn.Honest, hnone] at hh
    exact hh

/-- A two-byte message through a queue of 32 bytes. -/
theorem queue_fifo_two_bytes :
    ∃ h s, Run step (queueCreate Unit 32) h s ∧ s.q.completed = [[7, 9]] ∧
      s.q.completed <+: s.q.accepted.map Entry.buf ∧ ⟨some [7, 9], 2⟩ ∈ s.q.readReturns := by
  obtain ⟨h, s, hr, -, hc, hmem⟩ :=
    solo_roundtrip (show 32 < 2 ^ 64 by decide) (e := ⟨[7, 9], 0⟩) (by decide)
  exact ⟨h, s, hr, hc, (queue_fifo (by decide) hr).1, hmem⟩

/-- Whatever message of such a length fits into a queue, reading it returns
    `QUEUE_RET_ERROR` although the payload has been copied and released. -/
theorem solo_error {buf : List UInt8} (hcap : cap < 2 ^ 64) (hfit : headerSize + buf.length < cap)
    (hlen : buf.length % 2 ^ 32 = 2 ^ 32 - 1) :
    ∃ h s, Run step (queueCreate Unit cap) h s ∧ (∀ p ∈ h, Fits cap p.2) ∧
      ⟨some buf, QUEUE_RET_ERROR⟩ ∈ s.q.readReturns := by
  obtain ⟨h, s, hr, hfits, -, hmem⟩ := solo_roundtrip (e := ⟨buf, 0⟩) hcap hfit
  rw [(toInt_eq_error_iff _).mpr hlen] at hmem
  exact ⟨h, s, hr, hfits, hmem⟩

/-- A message of `2 ^ 32 - 1` bytes in a queue of `2 ^ 33` bytes. -/
theorem queue_read_returns_error :
    ∃ buf : List UInt8, buf.length = 2 ^ 32 - 1 ∧
    ∃ h s, Run step (queueCreate Unit (2 ^ 33)) h s ∧ (∀ p ∈ h, Fits (2 ^ 33) p.2) ∧
      ⟨some buf, QUEUE_RET_ERROR⟩ ∈ s.q.readReturns := by
  obtain ⟨buf, hlen⟩ : ∃ buf : List UInt8, buf.length = 2 ^ 32 - 1 :=
    ⟨List.replicate _ 0, List.length_replicate⟩
  refine ⟨buf, hlen, solo_error (by decide) ?_ ?_⟩
  · rw [hlen]
    decide
  · rw [hlen]
    decide

end Niuchacz.Queue
