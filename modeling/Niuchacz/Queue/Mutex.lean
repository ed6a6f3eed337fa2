import Niuchacz.Queue.Model

namespace Niuchacz.Queue

/-!
# Mutual exclusion

Which steps are taken with which mutex held (`Pc.holds`), and the invariant that ties the
two mutex fields to the program counters: in every reachable state a side's mutex belongs to
exactly the thread whose next step lies in that side's critical section (`Exclusive`).
-/

variable {ι : Type} {q : QueueT ι} {t : ι} {o : Outcome ι}

/-! ### The critical sections -/

/-- The steps of `queue_write` taken with `_writeMutex` held. -/
def WPc.inSection : WPc → Bool
  | .entry | .crc | .fault | .lock | .asleep | .woken _ | .broadcast => false
  | _ => true

/-- The steps of `queue_read` taken with `_readMutex` held. -/
def RPc.inSection : RPc → Bool
  | .lock | .asleep | .woken _ | .broadcast _ _ | .ret _ _ => false
  | _ => true

/-- The steps of a registration taken with the side's mutex held. -/
def NPc.inSection : NPc → Bool
  | .lock => false
  | _ => true

/-- The steps of a deregistration taken with the side's mutex held. -/
def FPc.inSection : FPc → Bool
  | .dec | .unlock => true
  | _ => false

/-- The next step of a thread at `p` is taken with the mutex of side `k` held. -/
def Pc.holds (k : Side) : Pc → Bool
  | .write _ _ p => k = .write && p.inSection
  | .read _ p => k = .read && p.inSection
  | .new k' p => k = k' && p.inSection
  | .free k' p => k = k' && p.inSection
  | .destroy (.test k') | .destroy (.wait k') | .destroy (.unlock k') => k = k'
  | _ => false

section

-- whether a step is inside a section is computed for each program counter
attribute [local simp] Pc.holds WPc.inSection RPc.inSection NPc.inSection FPc.inSection

/-- A broadcast gives nobody a mutex. -/
@[simp] theorem Pc.holds_wake (k k' : Side) (p : Pc) : (p.wake k').holds k = p.holds k := by
  unfold Pc.wake
  split
  · split <;> simp
  · split <;> simp
  · split <;> simp
  · rfl

/-- So what a step signals does not change who holds what. -/
@[simp] theorem Pc.holds_signalled (k : Side) (g : Option Side) (p : Pc) :
    (p.signalled g).holds k = p.holds k := by
  cases g with
  | none => rfl
  | some k' => exact Pc.holds_wake k k' p

/-- A thread that holds a mutex does not sleep: no broadcast moves it. -/
theorem Pc.signalled_of_holds {k : Side} {p : Pc} (hp : p.holds k = true) (g : Option Side) :
    p.signalled g = p := by
  cases g with
  | none => rfl
  | some k' =>
    simp only [Pc.signalled]
    unfold Pc.wake
    split
    · simp at hp
    · simp at hp
    · simp at hp
    · rfl

/-! ### What a step does to the mutexes -/

/-- A step that keeps both mutex fields keeps the mutex of either side. -/
theorem mutex_congr {q' : QueueT ι} (hr : q'.readMutex = q.readMutex)
    (hw : q'.writeMutex = q.writeMutex) (k : Side) : q'.mutex k = q.mutex k := by
  cases k
  · exact hr
  · exact hw

@[simp] theorem setMutex_mutex_self (k : Side) (x : Option ι) : (q.setMutex k x).mutex k = x := by
  cases k <;> rfl

theorem setMutex_mutex_ne {k k' : Side} (h : k ≠ k') (x : Option ι) :
    (q.setMutex k' x).mutex k = q.mutex k := by
  cases k <;> cases k' <;> first | rfl | exact absurd rfl h

@[simp] theorem addRegistered_mutex (k k' : Side) (d : ℤ) :
    (q.addRegistered k' d).mutex k = q.mutex k := by
  cases k <;> cases k' <;> rfl

/-- The possible effects of a step on one mutex: the thread neither takes nor gives it, or it
    takes a free mutex, or it gives up the one it holds. -/
def MutexEffect (q : QueueT ι) (t : ι) (p : Pc) (o : Outcome ι) (k : Side) : Prop :=
  (o.q.mutex k = q.mutex k ∧ o.pc.holds k = p.holds k) ∨
  (q.mutex k = none ∧ o.q.mutex k = some t ∧ o.pc.holds k = true) ∨
  (p.holds k = true ∧ o.q.mutex k = none ∧ o.pc.holds k = false)

/-- A step that neither takes nor gives back the mutex. -/
theorem MutexEffect.stay {p : Pc} {k : Side} (hq : o.q.mutex k = q.mutex k)
    (hp : o.pc.holds k = p.holds k) : MutexEffect q t p o k :=
  Or.inl ⟨hq, hp⟩

/-- Taking the mutex of side `k'`. -/
theorem MutexEffect.take {p p' : Pc} {k k' : Side} (h : lockThen q k' t p' = some o)
    (hp' : p'.holds k' = true) (hne : k ≠ k' → p'.holds k = p.holds k) :
    MutexEffect q t p o k := by
  unfold lockThen at h
  cases hfree : q.mutex k' with
  | some u => simp [hfree] at h
  | none =>
    simp only [hfree, goto, Option.some.injEq] at h
    subst h
    by_cases hk : k = k'
    · subst hk
      exact Or.inr (Or.inl ⟨hfree, setMutex_mutex_self k _, hp'⟩)
    · exact MutexEffect.stay (setMutex_mutex_ne hk _) (hne hk)

/-- Giving up the mutex of side `k'`. -/
theorem MutexEffect.drop {p : Pc} {k : Side} (k' : Side)
    (hq : o.q.mutex k = (q.setMutex k' none).mutex k)
    (hp : p.holds k' = true) (hp' : o.pc.holds k' = false)
    (hne : k ≠ k' → o.pc.holds k = p.holds k) : MutexEffect q t p o k := by
  by_cases hk : k = k'
  · subst hk
    exact Or.inr (Or.inr ⟨hp, by rw [hq, setMutex_mutex_self], hp'⟩)
  · exact MutexEffect.stay (by rw [hq, setMutex_mutex_ne hk]) (hne hk)

/-- The steps of `queue_write` take a free mutex, or give back one that they hold. -/
theorem stepWrite_mutex {e : Entry} {timed : Bool} {p : WPc} (k : Side)
    (h : stepWrite q t e timed p = some o) : MutexEffect q t (.write e timed p) o k := by
  cases p
  case lock => exact MutexEffect.take h rfl (fun hk => by simp [hk])
  case woken timedOut => exact MutexEffect.take h rfl (fun hk => by simp [hk])
  case asleep | fault => exact absurd h (by simp [stepWrite])
  case wait =>
    cases h
    exact MutexEffect.drop .write rfl rfl rfl (fun hk => by simp [hk])
  case bail ret =>
    cases h
    exact MutexEffect.drop .write (mutex_congr rfl rfl k) rfl rfl (fun hk => by simp [hk])
  case unlock =>
    cases h
    exact MutexEffect.drop .write rfl rfl rfl (fun hk => by simp [hk])
  all_goals
    -- the remaining steps leave both mutexes alone and stay on their side of the section
    simp only [stepWrite, goto] at h
    repeat' split at h
    all_goals
      cases h
      exact MutexEffect.stay (mutex_congr rfl rfl k) (by simp)

theorem stepRead_mutex {timed : Bool} {p : RPc} (k : Side)
    (h : stepRead q t timed p = some o) : MutexEffect q t (.read timed p) o k := by
  cases p
  case lock => exact MutexEffect.take h rfl (fun hk => by simp [hk])
  case woken timedOut => exact MutexEffect.take h rfl (fun hk => by simp [hk])
  case asleep => exact absurd h (by simp [stepRead])
  -- ==> the mutex is given up for the wait, after a failure and at the end
  case wait =>
    cases h
    exact MutexEffect.drop .read rfl rfl rfl (fun hk => by simp [hk])
  case bail ret =>
    cases h
    exact MutexEffect.drop .read (mutex_congr rfl rfl k) rfl rfl (fun hk => by simp [hk])
  case unlock hdr buf =>
    cases h
    exact MutexEffect.drop .read (mutex_congr rfl rfl k) rfl rfl (fun hk => by simp [hk])
  all_goals
    simp only [stepRead, goto] at h
    repeat' split at h
    all_goals
      cases h
      exact MutexEffect.stay (mutex_congr rfl rfl k) (by simp)

theorem stepNew_mutex {k' : Side} {p : NPc} (k : Side) (h : stepNew q t k' p = some o) :
    MutexEffect q t (.new k' p) o k := by
  cases p with
  | lock =>
    exact MutexEffect.take h (by simp) (fun hk => by simp [hk])
  | test =>
    simp only [stepNew, goto] at h
    split at h
    all_goals
      cases h
      exact MutexEffect.stay rfl (by simp)
  | inc =>
    cases h
    exact MutexEffect.stay (by simp) (by simp)
  | unlock success =>
    cases h
    exact MutexEffect.drop k' rfl (by simp) rfl (fun hk => by simp [hk])

theorem stepFree_mutex {k' : Side} {p : FPc} (k : Side) (h : stepFree q t k' p = some o) :
    MutexEffect q t (.free k' p) o k := by
  cases p with
  | lock =>
    exact MutexEffect.take h (by simp) (fun hk => by simp [hk])
  | dec =>
    cases h
    exact MutexEffect.stay (by simp) (by simp)
  | unlock =>
    cases h
    exact MutexEffect.drop k' rfl (by simp) (by simp) (fun hk => by simp [hk])
  | broadcast =>
    cases h
    exact MutexEffect.stay rfl (by simp)

theorem stepDestroy_mutex {p : DPc} (k : Side) (h : stepDestroy q t p = some o) :
    MutexEffect q t (.destroy p) o k := by
  cases p with
  | flag =>
    cases h
    exact MutexEffect.stay (mutex_congr rfl rfl k) rfl
  | lock k' => exact MutexEffect.take h (by simp) (fun hk => by simp [hk])
  | test k' =>
    simp only [stepDestroy, goto] at h
    split at h
    all_goals
      cases h
      exact MutexEffect.stay rfl (by simp)
  | wait k' =>
    cases h
    exact MutexEffect.drop k' rfl (by simp) rfl (fun hk => by simp [hk])
  | asleep k' => exact absurd h (by simp [stepDestroy])
  | woken k' => exact MutexEffect.take h (by simp) (fun hk => by simp [hk])
  | unlock k' =>
    cases h
    -- the next step is outside both sections, whichever side has just been left
    have hout : ∀ k,
        Pc.holds k (.destroy (if k' = .write then .lock .read else .free)) = false := by
      intro k
      split <;> rfl
    exact MutexEffect.drop k' rfl (by simp) (hout k')
      (fun hk => by rw [hout k]; simp [hk])
  | free =>
    cases h
    exact MutexEffect.stay (mutex_congr rfl rfl k) rfl

/-- A thread that wakes by itself was asleep; nothing but its program counter changes. -/
theorem stepWake_some {timedOut : Bool} {p : Pc} (h : stepWake q timedOut p = some o) :
    (∃ e timed, p = .write e timed .asleep ∧ o = ⟨q, .write e timed (.woken timedOut), none⟩) ∨
    (∃ timed, p = .read timed .asleep ∧ o = ⟨q, .read timed (.woken timedOut), none⟩) ∨
    (∃ k, p = .destroy (.asleep k) ∧ o = ⟨q, .destroy (.woken k), none⟩) := by
  unfold stepWake at h
  split at h
  · split at h <;> cases h
    exact Or.inl ⟨_, _, rfl, rfl⟩
  · split at h <;> cases h
    exact Or.inr (Or.inl ⟨_, rfl, rfl⟩)
  · split at h <;> cases h
    exact Or.inr (Or.inr ⟨_, rfl, rfl⟩)
  · cases h

/-- The three kinds of steps: a call, a step that the program determines, a wake-up. -/
theorem outcome_some {p : Pc} {a : Act} (h : outcome q t p a = some o) :
    q.freed = false ∧
      ((∃ c, a = .call c ∧ p = .idle ∧ o = ⟨q, c.start, none⟩) ∨
       (a = .go ∧ stepGo q t p = some o) ∨
       (∃ timedOut, a = .wake timedOut ∧ stepWake q timedOut p = some o)) := by
  unfold outcome at h
  split at h
  · cases h
  rename_i hf
  refine ⟨by simpa using hf, ?_⟩
  cases a with
  | call c =>
    dsimp only at h
    split at h
    · rename_i hp
      cases h
      exact Or.inl ⟨c, rfl, hp, rfl⟩
    · cases h
  | go => exact Or.inr (Or.inl ⟨rfl, h⟩)
  | wake timedOut => exact Or.inr (Or.inr ⟨timedOut, rfl, h⟩)

/-- The step that the program determines. -/
theorem step_go [DecidableEq ι] {s : State ι} {p : Pc} (hf : s.q.freed = false) (hp : s.pc t = p)
    (ho : stepGo s.q t p = some o) : step s (t, .go) = some (s.apply t o) := by
  have hout : outcome s.q t (s.pc t) .go = some o := by
    rw [hp]
    simpa [outcome, hf] using ho
  show (outcome s.q t (s.pc t) .go).map (s.apply t) = _
  rw [hout]
  rfl

/-- What any step does to a mutex. -/
theorem outcome_mutex {p : Pc} {a : Act} (k : Side) (h : outcome q t p a = some o) :
    MutexEffect q t p o k := by
  rcases (outcome_some h).2 with ⟨c, -, rfl, rfl⟩ | ⟨-, hgo⟩ | ⟨timedOut, -, hwake⟩
  · exact MutexEffect.stay rfl (by cases c <;> simp [Call.start])
  · cases p with
    | idle => exact absurd hgo (by simp [stepGo])
    | write e timed p => exact stepWrite_mutex k hgo
    | read timed p => exact stepRead_mutex k hgo
    | new k' p => exact stepNew_mutex k hgo
    | free k' p => exact stepFree_mutex k hgo
    | destroy p => exact stepDestroy_mutex k hgo
  · -- a thread that has been woken up does not have the mutex back yet
    rcases stepWake_some hwake with ⟨e, timed, rfl, rfl⟩ | ⟨timed, rfl, rfl⟩ | ⟨k', rfl, rfl⟩
    all_goals exact MutexEffect.stay rfl (by simp)

end

/-! ### The invariant -/

/-- The mutex of a side belongs to exactly the thread that is in the side's section. -/
def Exclusive (s : State ι) : Prop :=
  ∀ k t, s.q.mutex k = some t ↔ (s.pc t).holds k = true

/-- In a new queue the mutexes are free. -/
theorem exclusive_queueCreate (size : ℕ) : Exclusive (queueCreate ι size) := by
  intro k t
  cases k <;> simp [queueCreate, QueueT.mutex, Pc.holds]

/-- Two threads that hold one mutex are one thread. -/
theorem Exclusive.unique {s : State ι} (hx : Exclusive s) {k : Side} {t u : ι}
    (ht : (s.pc t).holds k = true) (hu : (s.pc u).holds k = true) : t = u := by
  have h1 := (hx k t).mpr ht
  have h2 := (hx k u).mpr hu
  rw [h1] at h2
  exact Option.some.inj h2

variable [DecidableEq ι]

/-- A step keeps mutual exclusion. -/
theorem exclusive_apply {s : State ι} {a : Act} (hx : Exclusive s)
    (h : outcome s.q t (s.pc t) a = some o) : Exclusive (s.apply t o) := by
  intro k u
  have heff := outcome_mutex k h
  by_cases hu : u = t
  · subst hu
    simp only [State.apply, Function.update_self]
    rcases heff with ⟨hq, hp⟩ | ⟨_, hq, hp⟩ | ⟨_, hq, hp⟩
    · rw [hq, hp]
      exact hx k u
    · simp [hq, hp]
    · simp [hq, hp]
  · simp only [State.apply, Function.update_of_ne hu, Pc.holds_signalled]
    rcases heff with ⟨hq, _⟩ | ⟨hfree, hq, _⟩ | ⟨hp, hq, _⟩
    · rw [hq]
      exact hx k u
    · -- a free mutex has no holder, and now the holder is `t`
      have hno : (s.pc u).holds k = false := by
        rw [← Bool.not_eq_true, ← hx k u, hfree]
        simp
      simp [hq, hno, Ne.symm hu]
    · -- `t` was the holder, so `u` is not
      have hno : (s.pc u).holds k = false := by
        rw [← Bool.not_eq_true]
        intro hh
        exact hu (hx.unique hh hp)
      simp [hq, hno]

end Niuchacz.Queue
