import Niuchacz.Queue.Window

namespace Niuchacz.Queue

/-!
# What the steps of a thread do to the window

Every program counter shows how far its thread has come with an entry (`WPc.view`,
`RPc.view`), and the thread that owns a side's mutex is the one that counts
(`State.viewOf`).  For each function of the queue this file says what its steps do to the
window:

* `stepWrite_inside`, `stepRead_inside` — in its section a thread's step is one of the
  operations of `Niuchacz.Queue.Window`.
* `stepWrite_outside`, `stepRead_outside` — outside it the step changes nothing.
* `Outcome.Quiet` — registration and destruction never touch the ring.
-/

/-! ### The views of the threads -/

/-- How far a producer at this step has come. -/
def WPc.view (e : Entry) : WPc → WView
  | .header i => ⟨e.header.take i, e.encode.length⟩
  | .data i => ⟨e.header ++ e.buf.take i, e.encode.length⟩
  | .addEntries | .testEntriesMax _ | .storeEntriesMax _ | .addUsage =>
      ⟨e.encode, e.encode.length⟩
  | _ => WView.none

/-- How far a consumer at this step has come. -/
def RPc.view : RPc → RView
  | .header hdr => .header hdr
  | .data hdr buf => .data hdr buf
  | .subEntries hdr buf | .subUsage hdr buf => .copied hdr buf
  | .unlock _ buf => .released buf
  | _ => .none

def Pc.wview : Pc → WView
  | .write e _ p => p.view e
  | _ => WView.none

def Pc.rview : Pc → RView
  | .read _ p => p.view
  | _ => RView.none

/-- A description of threads that is `d` outside the section of side `k`, and does not
    change when a sleeping thread is woken. -/
structure IsView {α : Type} (k : Side) (f : Pc → α) (d : α) : Prop where
  outside : ∀ p, Pc.holds k p = false → f p = d
  signalled : ∀ g p, f (p.signalled g) = f p

/-- A broadcast moves only threads outside the sections. -/
theorem IsView.of_outside {α : Type} {k : Side} {f : Pc → α} {d : α}
    (h : ∀ p, Pc.holds k p = false → f p = d) : IsView k f d where
  outside := h
  signalled := by
    intro g p
    by_cases hp : p.holds k = true
    · rw [Pc.signalled_of_holds hp]
    · rw [Bool.not_eq_true] at hp
      rw [h p hp, h _ (by rw [Pc.holds_signalled]; exact hp)]

/-- What a producer shows is seen only while it holds the mutex of its side. -/
theorem isView_wview : IsView .write Pc.wview WView.none := by
  refine .of_outside fun p hp => ?_
  cases p with
  | write e timed p =>
    cases p <;> first | rfl | exact absurd hp (by simp [Pc.holds, WPc.inSection])
  | _ => rfl

theorem isView_rview : IsView .read Pc.rview RView.none := by
  refine .of_outside fun p hp => ?_
  cases p with
  | read timed p => cases p <;> first | rfl | exact absurd hp (by simp [Pc.holds, RPc.inSection])
  | _ => rfl

variable {ι : Type} {q : QueueT ι} {t : ι} {o : Outcome ι} {cap : ℕ}

/-- The view of the owner of a side's mutex, `d` if nobody owns it. -/
def State.viewOf {α : Type} (s : State ι) (k : Side) (f : Pc → α) (d : α) : α :=
  match s.q.mutex k with
  | some t => f (s.pc t)
  | none => d

section
variable {α : Type} {k : Side} {f : Pc → α} {d : α} {s : State ι} {a : Act}

/-- The view of a side is that of the thread that holds its mutex. -/
theorem viewOf_owner (hx : Exclusive s) (ht : (s.pc t).holds k = true) :
    s.viewOf k f d = f (s.pc t) := by
  rw [State.viewOf, (hx k t).mpr ht]

variable [DecidableEq ι]

/-- The owner's step moves the side's view along with its own. -/
theorem viewOf_apply_owner (hv : IsView k f d) (hx : Exclusive s)
    (h : outcome s.q t (s.pc t) a = some o) (ht : (s.pc t).holds k = true) :
    (s.apply t o).viewOf k f d = f o.pc := by
  by_cases ho : o.pc.holds k = true
  · rw [viewOf_owner (t := t) (exclusive_apply hx h)]
    · simp [State.apply]
    · simpa [State.apply] using ho
  · -- the mutex has been given up: nobody owns it now
    rw [Bool.not_eq_true] at ho
    have hnone : (s.apply t o).q.mutex k = none := by
      rcases outcome_mutex k h with ⟨_, hp⟩ | ⟨_, _, hp⟩ | ⟨_, hq, _⟩
      · rw [hp, ht] at ho; cases ho
      · rw [hp] at ho; cases ho
      · exact hq
    rw [State.viewOf, hnone, hv.outside _ ho]

/-- A step between two points that show nothing leaves the side's view as it is. -/
theorem viewOf_apply_quiet (hv : IsView k f d) (hx : Exclusive s)
    (h : outcome s.q t (s.pc t) a = some o) (hp : f (s.pc t) = d) (ho : f o.pc = d) :
    (s.apply t o).viewOf k f d = s.viewOf k f d := by
  by_cases ht : (s.pc t).holds k = true
  · rw [viewOf_apply_owner hv hx h ht, viewOf_owner hx ht, hp, ho]
  · have hq := outcome_mutex k h
    rw [Bool.not_eq_true] at ht
    rcases hq with ⟨hq, _⟩ | ⟨hfree, hq, _⟩ | ⟨hp', _, _⟩
    · -- another thread may own the mutex; it has not moved
      show (match o.q.mutex k with | some u => f ((s.apply t o).pc u) | none => d) = _
      rw [hq, State.viewOf]
      cases hm : s.q.mutex k with
      | none => rfl
      | some u =>
        have hu : u ≠ t := by
          intro heq
          have := (hx k u).mp hm
          rw [heq, ht] at this
          cases this
        simp [State.apply, Function.update_of_ne hu, hv.signalled]
    · show (match o.q.mutex k with | some u => f ((s.apply t o).pc u) | none => d) = _
      rw [hq, State.viewOf, hfree]
      simpa [State.apply] using ho
    · rw [ht] at hp'; cases hp'

/-- A step either moves the side's view along with the thread's own, or it shows nothing and
    leaves the side's view as it is. -/
theorem viewOf_apply (hv : IsView k f d) (hx : Exclusive s)
    (h : outcome s.q t (s.pc t) a = some o) :
    (s.viewOf k f d = f (s.pc t) ∧ (s.apply t o).viewOf k f d = f o.pc) ∨
    ((s.apply t o).viewOf k f d = s.viewOf k f d ∧ f (s.pc t) = d ∧ f o.pc = d) := by
  by_cases hp : (s.pc t).holds k = true
  · exact Or.inl ⟨viewOf_owner hx hp, viewOf_apply_owner hv hx h hp⟩
  rw [Bool.not_eq_true] at hp
  by_cases ho : o.pc.holds k = true
  · -- the thread has just got the mutex: before, nobody had it
    left
    have hnone : s.q.mutex k = none := by
      rcases outcome_mutex k h with ⟨_, hs⟩ | ⟨hfree, _⟩ | ⟨hs, _⟩
      · rw [hs, hp] at ho; cases ho
      · exact hfree
      · rw [hp] at hs; cases hs
    refine ⟨by rw [State.viewOf, hnone, hv.outside _ hp], ?_⟩
    have hown : ((s.apply t o).pc t).holds k = true := by simpa [State.apply] using ho
    rw [viewOf_owner (exclusive_apply hx h) hown]
    simp [State.apply]
  · rw [Bool.not_eq_true] at ho
    have hd := hv.outside _ hp
    have hd' := hv.outside _ ho
    exact Or.inr ⟨viewOf_apply_quiet hv hx h hd hd', hd, hd'⟩

end

/-! ### Steps and the window -/

/-- The queue's ring, counter and bookkeeping match the two views. -/
def QueueT.Shows (cap : ℕ) (q : QueueT ι) (w : WView) (v : RView) : Prop :=
  Ok cap q.ring q.memUsageCurrent q.accepted q.completed w v

/-- Two queues that differ neither in the ring nor in what is stored in it. -/
def SameStore (q q' : QueueT ι) : Prop :=
  q'.ring = q.ring ∧ q'.memUsageCurrent = q.memUsageCurrent ∧
    q'.accepted = q.accepted ∧ q'.completed = q.completed

/-- The views fit any queue with the same ring and the same contents. -/
theorem QueueT.Shows.congr {q q' : QueueT ι} {w : WView} {v : RView}
    (h : q.Shows cap w v) (hs : SameStore q q') : q'.Shows cap w v := by
  obtain ⟨h1, h2, h3, h4⟩ := hs
  rw [QueueT.Shows, h1, h2, h3, h4]
  exact h

theorem sameStore_setMutex (q : QueueT ι) (k : Side) (x : Option ι) :
    SameStore q (q.setMutex k x) := by
  cases k <;> exact ⟨rfl, rfl, rfl, rfl⟩

theorem sameStore_addRegistered (q : QueueT ι) (k : Side) (d : ℤ) :
    SameStore q (q.addRegistered k d) := by
  cases k <;> exact ⟨rfl, rfl, rfl, rfl⟩

/-- Taking a mutex changes neither the ring nor what the thread shows. -/
theorem lockThen_some {k : Side} {p : Pc} (h : lockThen q k t p = some o) :
    o.q = q.setMutex k (some t) ∧ o.pc = p ∧ o.signal = none := by
  unfold lockThen at h
  split at h
  · cases h
    exact ⟨rfl, rfl, rfl⟩
  · cases h

/-- Outside its section a producer touches nothing and shows nothing. -/
theorem stepWrite_outside {e : Entry} {timed : Bool} {p : WPc} (hp : p.inSection = false)
    (h : stepWrite q t e timed p = some o) : SameStore q o.q ∧ o.pc.wview = WView.none := by
  cases p
  -- ==> before the lock the queue is only looked at
  case entry | crc =>
    simp only [stepWrite, goto] at h
    split at h
    all_goals
      cases h
      exact ⟨⟨rfl, rfl, rfl, rfl⟩, rfl⟩
  case lock =>
    obtain ⟨hq, hpc, _⟩ := lockThen_some h
    exact ⟨by rw [hq]; exact sameStore_setMutex q _ _, by rw [hpc]; rfl⟩
  case woken timedOut =>
    obtain ⟨hq, hpc, _⟩ := lockThen_some h
    exact ⟨by rw [hq]; exact sameStore_setMutex q _ _, by rw [hpc]; rfl⟩
  case asleep | fault => exact absurd h (by simp [stepWrite])
  case broadcast =>
    cases h
    exact ⟨⟨rfl, rfl, rfl, rfl⟩, rfl⟩
  -- all other points are inside of the section
  all_goals cases hp

/-- A producer stays in its call or returns. -/
theorem stepWrite_pc {e : Entry} {timed : Bool} {p : WPc}
    (h : stepWrite q t e timed p = some o) : o.pc = .idle ∨ ∃ p', o.pc = .write e timed p' := by
  cases p
  case lock => exact Or.inr ⟨_, (lockThen_some h).2.1⟩
  case woken timedOut => exact Or.inr ⟨_, (lockThen_some h).2.1⟩
  all_goals
    simp only [stepWrite, goto] at h
    repeat' split at h
    all_goals
      cases h
      try first | exact Or.inl rfl | exact Or.inr ⟨_, rfl⟩

/-- A producer does not come to show anything of a consumer. -/
theorem stepWrite_rview {e : Entry} {timed : Bool} {p : WPc}
    (h : stepWrite q t e timed p = some o) : o.pc.rview = RView.none := by
  rcases stepWrite_pc h with hpc | ⟨p', hpc⟩ <;> rw [hpc] <;> rfl

/-- One more byte of a list. -/
theorem take_snoc {α : Type*} {xs : List α} {i : ℕ} {x : α} (h : xs[i]? = some x) :
    xs.take (i + 1) = xs.take i ++ [x] := by
  rw [List.take_add_one, h]
  rfl

/-- The bytes before one that exists are as many as its index says. -/
theorem length_take_of_getElem? {α : Type*} {xs : List α} {i : ℕ} {x : α}
    (h : xs[i]? = some x) : (xs.take i).length = i ∧ i < xs.length := by
  have hlt := (List.getElem?_eq_some_iff.mp h).1
  exact ⟨by rw [List.length_take]; omega, hlt⟩

/-- Inside its section a producer's steps are the producer's operations on the window. -/
theorem stepWrite_inside {e : Entry} {timed : Bool} {p : WPc} {v : RView}
    (hcap : cap < 2 ^ 64) (hsize : q.memSizeCurrent = cap)
    (hfit : headerSize + e.buf.length < cap) (hp : p.inSection = true)
    (h : stepWrite q t e timed p = some o) (hok : q.Shows cap (p.view e) v) :
    o.q.Shows cap o.pc.wview v := by
  have hsz : e.entrySize = headerSize + e.buf.length := entrySize_eq (by omega)
  have hle := hok.usage_le
  cases p
  case test =>
    simp only [stepWrite, goto, hsize] at h
    have hle' : q.memUsageCurrent ≤ cap := by omega
    rw [sizeSub, if_pos hle', hsz] at h
    split at h
    · cases h
      exact hok
    · cases h
      refine Ok.reserve hok ?_
      rw [length_encode]
      omega
  case header i =>
    simp only [stepWrite, goto, hsize] at h
    cases hb : e.header[i]? with
    | some b =>
      obtain ⟨hlen, hlt⟩ := length_take_of_getElem? hb
      rw [hb] at h
      cases h
      show Ok cap _ _ _ _ ⟨e.header.take (i + 1), e.encode.length⟩ v
      rw [take_snoc hb]
      refine Ok.put hok ?_ b
      rw [hlen, length_encode]
      rw [length_header] at hlt
      omega
    | none =>
      rw [hb] at h
      cases h
      have hfull : e.header.take i = e.header := by
        rw [List.take_of_length_le (List.getElem?_eq_none_iff.mp hb)]
      have hok' : q.Shows cap ⟨e.header.take i, e.encode.length⟩ v := hok
      rw [hfull] at hok'
      simpa [WPc.view, Pc.wview, QueueT.Shows] using hok'
  case data i =>
    simp only [stepWrite, goto, hsize] at h
    cases hb : e.buf[i]? with
    | some b =>
      obtain ⟨hlen, hlt⟩ := length_take_of_getElem? hb
      rw [hb] at h
      cases h
      show Ok cap _ _ _ _ ⟨e.header ++ e.buf.take (i + 1), e.encode.length⟩ v
      rw [take_snoc hb, ← List.append_assoc]
      refine Ok.put hok ?_ b
      rw [List.length_append, hlen, length_header, length_encode]
      omega
    | none =>
      rw [hb] at h
      cases h
      have hfull : e.buf.take i = e.buf := by
        rw [List.take_of_length_le (List.getElem?_eq_none_iff.mp hb)]
      have hok' : q.Shows cap ⟨e.header ++ e.buf.take i, e.encode.length⟩ v := hok
      rw [hfull] at hok'
      exact hok'
  case addUsage =>
    cases h
    have hroom : q.memUsageCurrent + e.encode.length ≤ cap := hle
    have hsum : sizeAdd q.memUsageCurrent e.entrySize = q.memUsageCurrent + e.encode.length := by
      rw [sizeAdd, hsz, ← length_encode, Nat.mod_eq_of_lt (by omega)]
    show Ok cap _ (sizeAdd q.memUsageCurrent e.entrySize) _ _ WView.none v
    rw [hsum]
    exact Ok.publish hok hfit
  case wait =>
    cases h
    exact hok.congr (sameStore_setMutex q _ _)
  case bail ret =>
    cases h
    exact hok.congr (sameStore_setMutex q _ _)
  case unlock =>
    cases h
    exact hok.congr (sameStore_setMutex q _ _)
  all_goals
    -- the other steps only touch the statistics, or are outside the section
    simp only [stepWrite, goto] at h
    repeat' split at h
    all_goals
      first
      | exact (Bool.false_ne_true hp).elim
      | cases h
        exact QueueT.Shows.congr hok ⟨rfl, rfl, rfl, rfl⟩

/-- Outside its section a consumer touches nothing and shows nothing. -/
theorem stepRead_outside {timed : Bool} {p : RPc} (hp : p.inSection = false)
    (h : stepRead q t timed p = some o) : SameStore q o.q ∧ o.pc.rview = RView.none := by
  cases p
  case lock =>
    obtain ⟨hq, hpc, _⟩ := lockThen_some h
    exact ⟨by rw [hq]; exact sameStore_setMutex q _ _, by rw [hpc]; rfl⟩
  case woken timedOut =>
    obtain ⟨hq, hpc, _⟩ := lockThen_some h
    exact ⟨by rw [hq]; exact sameStore_setMutex q _ _, by rw [hpc]; rfl⟩
  case asleep => exact absurd h (by simp [stepRead])
  case broadcast hdr buf =>
    cases h
    exact ⟨⟨rfl, rfl, rfl, rfl⟩, rfl⟩
  case ret hdr buf =>
    cases h
    exact ⟨⟨rfl, rfl, rfl, rfl⟩, rfl⟩
  all_goals cases hp

/-- A consumer stays in its call or returns. -/
theorem stepRead_pc {timed : Bool} {p : RPc} (h : stepRead q t timed p = some o) :
    o.pc = .idle ∨ ∃ p', o.pc = .read timed p' := by
  cases p
  case lock => exact Or.inr ⟨_, (lockThen_some h).2.1⟩
  case woken timedOut => exact Or.inr ⟨_, (lockThen_some h).2.1⟩
  all_goals
    simp only [stepRead, goto] at h
    repeat' split at h
    all_goals
      cases h
      try first | exact Or.inl rfl | exact Or.inr ⟨_, rfl⟩

/-- A consumer does not come to show anything of a producer. -/
theorem stepRead_wview {timed : Bool} {p : RPc} (h : stepRead q t timed p = some o) :
    o.pc.wview = WView.none := by
  rcases stepRead_pc h with hpc | ⟨p', hpc⟩ <;> rw [hpc] <;> rfl

/-- Inside its section a consumer's steps are the consumer's operations on the window. -/
theorem stepRead_inside {timed : Bool} {p : RPc} {w : WView}
    (hcap : cap < 2 ^ 64) (hsize : q.memSizeCurrent = cap) (hp : p.inSection = true)
    (h : stepRead q t timed p = some o) (hok : q.Shows cap w p.view) :
    o.q.Shows cap w o.pc.rview := by
  cases p
  case test =>
    simp only [stepRead, goto] at h
    split at h
    · cases h
      exact hok
    · rename_i hu
      cases h
      exact Ok.begin hok hu
  case header hdr =>
    simp only [stepRead, goto, hsize] at h
    split at h
    · rename_i hlt
      cases h
      exact Ok.getHeader hok hlt
    · rename_i hge
      cases h
      exact Ok.headerDone hok hge
  case data hdr buf =>
    simp only [stepRead, goto, hsize] at h
    split at h
    · rename_i hlt
      cases h
      exact Ok.getData hok hcap hlt
    · rename_i hge
      cases h
      exact Ok.dataDone hok hcap hge
  case subUsage hdr buf =>
    cases h
    -- the header that was read is that of a stored entry: what is given back is what it took
    obtain ⟨e, he, rfl, rfl, hle⟩ := Ok.copied hok
    have hfit := hok.fits he
    have hsum : sizeAdd (headerLen e.header) headerSize = e.encode.length := by
      rw [headerLen_header e (by omega), sizeAdd, length_encode, Nat.mod_eq_of_lt (by omega),
        Nat.add_comm]
    show Ok cap _ (sizeSub q.memUsageCurrent (sizeAdd (headerLen e.header) headerSize)) _ _ w _
    rw [hsum, sizeSub, if_pos hle]
    exact Ok.release hok
  case unlock hdr buf =>
    cases h
    exact Ok.complete hok
  case wait =>
    cases h
    exact hok.congr (sameStore_setMutex q _ _)
  case bail ret =>
    cases h
    exact hok.congr (sameStore_setMutex q _ _)
  all_goals
    simp only [stepRead, goto] at h
    repeat' split at h
    all_goals
      first
      | exact (Bool.false_ne_true hp).elim
      | cases h
        exact QueueT.Shows.congr hok ⟨rfl, rfl, rfl, rfl⟩

/-- Neither in `queue_write` nor in `queue_read`. -/
def Pc.elsewhere : Pc → Bool
  | .write .. | .read .. => false
  | _ => true

/-- Outside of the two functions nothing is shown of a producer. -/
theorem Pc.wview_elsewhere {p : Pc} (h : p.elsewhere = true) : p.wview = WView.none := by
  cases p <;> first | rfl | cases h

theorem Pc.rview_elsewhere {p : Pc} (h : p.elsewhere = true) : p.rview = RView.none := by
  cases p <;> first | rfl | cases h

/-- A step that touches neither the ring nor what reads have returned, and leads to a point
    outside `queue_write` and `queue_read`. -/
def Outcome.Quiet (q : QueueT ι) (o : Outcome ι) : Prop :=
  SameStore q o.q ∧ o.q.readReturns = q.readReturns ∧
    o.q.memSizeCurrent = q.memSizeCurrent ∧ o.pc.elsewhere = true

theorem quiet_setMutex (k : Side) (x : Option ι) {p : Pc} (hp : p.elsewhere = true)
    (g : Option Side) : Outcome.Quiet q ⟨q.setMutex k x, p, g⟩ :=
  ⟨sameStore_setMutex q k x, by cases k <;> rfl, by cases k <;> rfl, hp⟩

theorem quiet_addRegistered (k : Side) (d : ℤ) {p : Pc} (hp : p.elsewhere = true)
    (g : Option Side) : Outcome.Quiet q ⟨q.addRegistered k d, p, g⟩ :=
  ⟨sameStore_addRegistered q k d, by cases k <;> rfl, by cases k <;> rfl, hp⟩

/-- Waiting for a mutex and taking it is quiet. -/
theorem quiet_lockThen {k : Side} {p : Pc} (h : lockThen q k t p = some o)
    (hp : p.elsewhere = true) : o.Quiet q := by
  obtain ⟨hq, hpc, hg⟩ := lockThen_some h
  have ho : o = ⟨q.setMutex k (some t), p, none⟩ := by
    cases o
    simp_all
  rw [ho]
  exact quiet_setMutex k _ hp none

/-- All steps of `queue_producer_new` and `queue_consumer_new` are quiet. -/
theorem stepNew_quiet {k : Side} {p : NPc} (h : stepNew q t k p = some o) : o.Quiet q := by
  cases p with
  | lock => exact quiet_lockThen h rfl
  | test =>
    simp only [stepNew, goto] at h
    split at h
    all_goals
      cases h
      exact ⟨⟨rfl, rfl, rfl, rfl⟩, rfl, rfl, rfl⟩
  | inc =>
    cases h
    exact quiet_addRegistered k _ rfl _
  | unlock success =>
    cases h
    exact quiet_setMutex k _ rfl _

theorem stepFree_quiet {k : Side} {p : FPc} (h : stepFree q t k p = some o) : o.Quiet q := by
  cases p with
  | lock => exact quiet_lockThen h rfl
  | dec =>
    cases h
    exact quiet_addRegistered k _ rfl _
  | unlock =>
    cases h
    exact quiet_setMutex k _ rfl _
  | broadcast =>
    cases h
    exact ⟨⟨rfl, rfl, rfl, rfl⟩, rfl, rfl, rfl⟩

theorem stepDestroy_quiet {p : DPc} (h : stepDestroy q t p = some o) : o.Quiet q := by
  cases p with
  | flag =>
    cases h
    exact ⟨⟨rfl, rfl, rfl, rfl⟩, rfl, rfl, rfl⟩
  | lock k => exact quiet_lockThen h rfl
  | test k =>
    simp only [stepDestroy, goto] at h
    split at h
    all_goals
      cases h
      exact ⟨⟨rfl, rfl, rfl, rfl⟩, rfl, rfl, rfl⟩
  | wait k =>
    cases h
    exact quiet_setMutex k _ rfl _
  | asleep k => exact absurd h (by simp [stepDestroy])
  | woken k => exact quiet_lockThen h rfl
  | unlock k =>
    cases h
    exact quiet_setMutex k _ rfl _
  | free =>
    cases h
    exact ⟨⟨rfl, rfl, rfl, rfl⟩, rfl, rfl, rfl⟩

end Niuchacz.Queue
