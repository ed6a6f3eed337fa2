import Niuchacz.Queue.Fifo

namespace Niuchacz.Queue

open Lib.Transition

/-!
# What `queue_write` returns

A `queue_write` that does not report an error has stored its message:

* `Pc.Sends` — what a producer in the middle of a call has checked and done.
* `Returned` — the meaning of a value returned by `queue_write`.
* `sent_run` — the meaning holds in every run, whatever the sizes of the buffers are.
-/

variable {ι : Type} {q : QueueT ι} {t : ι} {o : Outcome ι} {cap : ℕ}

/-- The producer has added its message to the used memory. -/
def WPc.published : WPc → Bool
  | .testUsageMax _ | .storeUsageMax _ | .unlock | .broadcast => true
  | _ => false

/-- What a producer in the middle of a call has checked and done. -/
def Pc.Sends (cap : ℕ) (acc : List Entry) : Pc → Prop
  | .write _ _ .entry => True
  | .write e _ (.bail ret) => e.entrySize < cap ∧ ret < 0
  | .write e _ p => e.entrySize < cap ∧ (p.published = true → e ∈ acc)
  | _ => True

/-- What a finished `queue_write` of some bytes says by its result: the result is negative, or it
    is the length of the bytes as an `int`, and they have been stored after the size test. -/
def Returned (cap : ℕ) (acc : List Entry) (r : List UInt8 × ℤ) : Prop :=
  r.2 < 0 ∨ r.2 = toInt r.1.length ∧ ∃ e ∈ acc, e.buf = r.1 ∧ e.entrySize < cap

/-- What is known of all producers. -/
structure Sent (cap : ℕ) (s : State ι) : Prop where
  size : s.q.memSizeCurrent = cap
  sends : ∀ t, (s.pc t).Sends cap s.q.accepted
  returned : ∀ r ∈ s.q.writeReturns, Returned cap s.q.accepted r

/-- A message that has been accepted stays accepted. -/
theorem Pc.Sends.mono {p : Pc} {acc acc' : List Entry} (h : p.Sends cap acc) (ha : acc <+: acc') :
    p.Sends cap acc' := by
  cases p with
  | write e timed p =>
    cases p with
    | entry => trivial
    | bail ret => exact h
    | _ => exact ⟨h.1, fun hp => ha.subset (h.2 hp)⟩
  | _ => trivial

/-- So a result that was right stays right. -/
theorem Returned.mono {acc acc' : List Entry} {r : List UInt8 × ℤ} (h : Returned cap acc r)
    (ha : acc <+: acc') : Returned cap acc' r := by
  rcases h with hneg | ⟨hret, e, he, hbuf⟩
  · exact Or.inl hneg
  · exact Or.inr ⟨hret, e, ha.subset he, hbuf⟩

/-- Being woken does not change what a thread sends. -/
theorem Pc.Sends.signalled {p : Pc} {acc : List Entry} (h : p.Sends cap acc) (g : Option Side) :
    (p.signalled g).Sends cap acc := by
  cases g with
  | none => exact h
  | some k =>
    simp only [Pc.signalled, Pc.wake]
    split
    · split <;> exact ⟨h.1, by rintro ⟨⟩⟩
    · trivial
    · trivial
    · exact h

theorem mem_logWrite {buf : List UInt8} {ret : ℤ} {r : List UInt8 × ℤ} :
    r ∈ (q.logWrite buf ret).writeReturns ↔ r ∈ q.writeReturns ∨ r = (buf, ret) := by
  simp [QueueT.logWrite]

@[simp] theorem writeReturns_setMutex (q : QueueT ι) (k : Side) (x : Option ι) :
    (q.setMutex k x).writeReturns = q.writeReturns := by
  cases k <;> rfl

@[simp] theorem writeReturns_addRegistered (q : QueueT ι) (k : Side) (d : ℤ) :
    (q.addRegistered k d).writeReturns = q.writeReturns := by
  cases k <;> rfl

/-! ### Steps -/

/-- The steps of `queue_write` keep what a producer knows, and what it returns has its meaning. -/
theorem stepWrite_sends {e : Entry} {timed : Bool} {p : WPc} (hsize : q.memSizeCurrent = cap)
    (hk : Pc.Sends cap q.accepted (.write e timed p)) (h : stepWrite q t e timed p = some o) :
    o.pc.Sends cap o.q.accepted ∧
      ∀ r ∈ o.q.writeReturns, r ∈ q.writeReturns ∨ Returned cap o.q.accepted r := by
  -- a step that returns nothing
  have hquiet : o.pc.Sends cap o.q.accepted → o.q.writeReturns = q.writeReturns →
      o.pc.Sends cap o.q.accepted ∧
        ∀ r ∈ o.q.writeReturns, r ∈ q.writeReturns ∨ Returned cap o.q.accepted r :=
    fun hs hw => ⟨hs, fun r hr => Or.inl (by rwa [hw] at hr)⟩
  cases p with
  | entry =>
    simp only [stepWrite, goto] at h
    split at h
    · cases h
      refine ⟨trivial, ?_⟩
      intro r hr
      rcases mem_logWrite.mp hr with hr | rfl
      · exact Or.inl hr
      · refine Or.inr (Or.inl ?_)
        show QUEUE_RET_ERROR < 0
        decide
    · rename_i hlt
      cases h
      exact hquiet ⟨by omega, by rintro ⟨⟩⟩ rfl
  | lock | woken timedOut =>
    obtain ⟨hq, hpc, -⟩ := lockThen_some h
    refine hquiet ?_ (by rw [hq]; rfl)
    rw [hpc]
    exact ⟨hk.1, by rintro ⟨⟩⟩
  | awake timedOut =>
    simp only [stepWrite, goto] at h
    split at h
    · cases h
      exact hquiet ⟨hk.1, by decide⟩ rfl
    · split at h
      · cases h
        exact hquiet ⟨hk.1, by decide⟩ rfl
      · cases h
        exact hquiet ⟨hk.1, by rintro ⟨⟩⟩ rfl
  | bail ret =>
    cases h
    refine ⟨trivial, ?_⟩
    intro r hr
    rcases mem_logWrite.mp hr with hr | rfl
    · exact Or.inl (by simpa using hr)
    · exact Or.inr (Or.inl hk.2)
  | addUsage =>
    cases h
    exact hquiet ⟨hk.1, fun _ => by simp⟩ rfl
  | broadcast =>
    cases h
    refine ⟨trivial, ?_⟩
    intro r hr
    rcases mem_logWrite.mp hr with hr | rfl
    · exact Or.inl hr
    · have hstored : e ∈ q.accepted := hk.2 rfl
      refine Or.inr (Or.inr ⟨?_, e, hstored, rfl, hk.1⟩)
      dsimp only
  | testUsageMax n | storeUsageMax n | unlock =>
    simp only [stepWrite, goto] at h
    repeat' split at h
    all_goals
      cases h
      exact hquiet ⟨hk.1, fun _ => hk.2 rfl⟩ rfl
  | _ =>
    simp only [stepWrite, goto] at h
    repeat' split at h
    all_goals
      cases h
      try exact hquiet ⟨hk.1, by rintro ⟨⟩⟩ rfl

/-- The other functions return nothing to a producer. -/
theorem writeReturns_stepGo {p : Pc} (hp : ∀ e timed p', p ≠ .write e timed p')
    (h : stepGo q t p = some o) : o.q.writeReturns = q.writeReturns := by
  -- every function starts with a lock, and a lock returns nothing
  have hlock : ∀ {k : Side} {p' : Pc}, lockThen q k t p' = some o →
      o.q.writeReturns = q.writeReturns := by
    intro k p' hl
    rw [(lockThen_some hl).1, writeReturns_setMutex]
  cases p with
  | idle => cases h
  | write e timed p => exact absurd rfl (hp e timed p)
  | read timed p =>
    cases p
    case lock => exact hlock h
    case woken timedOut => exact hlock h
    all_goals
      simp only [stepGo, stepRead, goto] at h
      repeat' split at h
      all_goals
        cases h
        try first | rfl | exact writeReturns_setMutex _ _ _
  | new k p =>
    cases p
    case lock => exact hlock h
    all_goals
      simp only [stepGo, stepNew, goto] at h
      repeat' split at h
      all_goals
        cases h
        simp
  | free k p =>
    cases p
    case lock => exact hlock h
    all_goals
      cases h
      simp
  | destroy p =>
    cases p
    case lock k => exact hlock h
    case woken k => exact hlock h
    all_goals
      simp only [stepGo, stepDestroy, goto] at h
      repeat' split at h
      all_goals
        cases h
        try simp

/-! ### Runs -/

theorem sent_queueCreate (cap : ℕ) : Sent cap (queueCreate ι cap) where
  size := rfl
  sends := fun _ => trivial
  returned := by rintro _ ⟨⟩

section
variable [DecidableEq ι] {s : State ι}

/-- Assemble the invariant after a step from what the step does. -/
theorem Sent.of_step (hs : Sent cap s) (hsize : o.q.memSizeCurrent = s.q.memSizeCurrent)
    (hacc : s.q.accepted <+: o.q.accepted) (hsends : o.pc.Sends cap o.q.accepted)
    (hret : ∀ r ∈ o.q.writeReturns, r ∈ s.q.writeReturns ∨ Returned cap o.q.accepted r) :
    Sent cap (s.apply t o) where
  size := hsize.trans hs.size
  sends := by
    intro u
    by_cases hu : u = t
    · subst hu
      simpa [State.apply] using hsends
    · simp only [State.apply, Function.update_of_ne hu]
      exact ((hs.sends u).mono hacc).signalled o.signal
  returned := by
    intro r hr
    rcases hret r hr with hr | hr
    · exact (hs.returned r hr).mono hacc
    · exact hr

/-- **Step.**  Every step of every thread keeps the invariant. -/
theorem sent_step {s' : State ι} {l : ι × Act} (hs : Sent cap s) (h : step s l = some s') :
    Sent cap s' := by
  obtain ⟨o, ho, rfl⟩ := Option.map_eq_some_iff.mp h
  obtain ⟨t, a⟩ := l
  rcases (outcome_some ho).2 with ⟨c, -, -, rfl⟩ | ⟨-, ho⟩ | ⟨timedOut, -, ho⟩
  · refine hs.of_step rfl List.prefix_rfl ?_ (fun r hr => Or.inl hr)
    cases c <;> trivial
  · -- outside `queue_write` nothing that the invariant speaks of changes
    have hother : (∀ e timed p', s.pc t ≠ .write e timed p') →
        o.q.memSizeCurrent = s.q.memSizeCurrent → o.q.accepted = s.q.accepted →
        o.pc.Sends cap o.q.accepted → Sent cap (s.apply t o) := by
      intro hp hsize hacc hsends
      refine hs.of_step hsize (hacc ▸ List.prefix_rfl) hsends ?_
      intro r hr
      rw [writeReturns_stepGo hp ho] at hr
      exact Or.inl hr
    have hquiet : (∀ e timed p', s.pc t ≠ .write e timed p') → o.Quiet s.q →
        Sent cap (s.apply t o) := by
      rintro hp ⟨hsame, -, hsize, helse⟩
      refine hother hp hsize hsame.2.2.1 ?_
      cases hpc : o.pc with
      | write e timed p => rw [hpc] at helse; cases helse
      | _ => trivial
    cases hp : s.pc t with
    | idle => rw [hp] at ho; cases ho
    | write e timed p =>
      rw [hp] at ho
      have hk := hs.sends t
      rw [hp] at hk
      -- only here can a call return, and its own step says what
      obtain ⟨hsize, hacc, -, -⟩ := stepWrite_log ho
      obtain ⟨hsends, hret⟩ := stepWrite_sends hs.size hk ho
      exact hs.of_step hsize hacc hsends hret
    | read timed p =>
      rw [hp] at hother ho
      obtain ⟨hsize, hacc, -⟩ := stepRead_log ho
      refine hother (by simp) hsize hacc ?_
      rcases stepRead_pc ho with hpc | ⟨p', hpc⟩ <;> rw [hpc] <;> trivial
    | new k p => rw [hp] at hquiet ho; exact hquiet (by simp) (stepNew_quiet ho)
    | free k p => rw [hp] at hquiet ho; exact hquiet (by simp) (stepFree_quiet ho)
    | destroy p => rw [hp] at hquiet ho; exact hquiet (by simp) (stepDestroy_quiet ho)
  · -- a sleeper wakes up where it fell asleep, with nothing sent
    have hk := hs.sends t
    rcases stepWake_some ho with ⟨e, timed, hp, rfl⟩ | ⟨timed, hp, rfl⟩ | ⟨k, hp, rfl⟩
    · rw [hp] at hk
      exact hs.of_step rfl List.prefix_rfl ⟨hk.1, by rintro ⟨⟩⟩ (fun r hr => Or.inl hr)
    · exact hs.of_step rfl List.prefix_rfl trivial (fun r hr => Or.inl hr)
    · exact hs.of_step rfl List.prefix_rfl trivial (fun r hr => Or.inl hr)

/-- **Run.**  In every run, whatever the sizes of the buffers are, the values returned by
    `queue_write` have their meaning. -/
theorem sent_run {h : List (State ι × ι × Act)} (hr : Run step (queueCreate ι cap) h s) :
    Sent cap s :=
  hr.invariant (fun _ _ => True) (Sent cap) (sent_queueCreate cap)
    (fun _ _ _ hs _ hstep => sent_step hs hstep) (fun _ _ => trivial)

end

end Niuchacz.Queue
