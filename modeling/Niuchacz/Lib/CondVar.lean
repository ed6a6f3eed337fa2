import Mathlib.Logic.Function.Basic

namespace Lib.CondVar

/-!
# Waiting on a condition variable

A condition variable seen from outside: some threads test whether what they need is there
and, if it is not, fall asleep; other threads make it available and then broadcast.  The
test and the falling asleep are two moments, and so are the change and the broadcast.

* `Phase` — where a thread stands: between its failed test and its sleep, asleep, between
  its change and its broadcast, or anywhere else.
* `Safe` — whoever waits for something that is already there can count on a broadcast.
* `Missed` — the broadcast that breaks this: it is the last one due and there is a thread
  between test and sleep that it cannot wake.
* `Safe.step` — every step other than a missed broadcast keeps `Safe`.
* `Missed.lost` — after a missed broadcast the next step can lose the wake-up for good.

What a thread needs is a value of `α`, and `en c` says that the need `c` is met.
-/

/-- Where a thread stands with respect to one condition variable. -/
inductive Phase (α : Type*) where
  | other
  | tested (c : α)
  | asleep (c : α)
  | pending

variable {ι α : Type*} {ph : ι → Phase α} {en en' : α → Prop}

/-- The effect of a broadcast on a thread. -/
def Phase.wake : Phase α → Phase α
  | .asleep _ => .other
  | p => p

/-- A broadcast is still due. -/
def Due (ph : ι → Phase α) : Prop := ∃ u, ph u = .pending

/-- A thread sleeps although its need is met and no broadcast is due. -/
def Lost (ph : ι → Phase α) (en : α → Prop) : Prop :=
  ∃ t c, ph t = .asleep c ∧ en c ∧ ¬ Due ph

/-- Whoever has seen its need unmet, and sleeps or is about to, either still has an unmet
    need or can count on a broadcast. -/
def Safe (ph : ι → Phase α) (en : α → Prop) : Prop :=
  ∀ t c, ph t = .tested c ∨ ph t = .asleep c → en c → Due ph

/-- In a safe state no wakeup is lost. -/
theorem Safe.not_lost (h : Safe ph en) : ¬ Lost ph en := by
  rintro ⟨t, c, hc, hen, hdue⟩
  exact hdue (h t c (Or.inr hc) hen)

/-- Thread `t` broadcasts for the last time while a thread whose need is met stands between
    its test and its sleep. -/
def Missed (ph : ι → Phase α) (en : α → Prop) (t : ι) : Prop :=
  (∃ u c, ph u = .tested c ∧ en c) ∧ ∀ v, v ≠ t → ph v ≠ .pending

/-- What a step may do to the phase of the thread that takes it: it gets to `tested` only by
    a failed test and to `asleep` only from there, it meets a need only by becoming `pending`,
    and it stops being `pending` only by the broadcast. -/
structure Steps (en en' : α → Prop) (p p' : Phase α) (signal : Bool) : Prop where
  tests : ∀ c, p' = .tested c → en' c → p = .tested c
  sleeps : ∀ c, p' = .asleep c → p = .tested c ∨ p = .asleep c
  meets : p' = .pending ∨ ∀ c, en' c → en c
  stays : p = .pending → p' = .pending ∨ signal = true

/-- A step to a point that neither waits nor owes a broadcast. -/
theorem Steps.to_other {p : Phase α} {signal : Bool} (hen : ∀ c, en' c → en c)
    (hs : p = .pending → signal = true) : Steps en en' p .other signal where
  tests := fun c hc => by cases hc
  sleeps := fun c hc => by cases hc
  meets := Or.inr hen
  stays := fun hpend => Or.inr (hs hpend)

/-- A step after which the thread owes a broadcast. -/
theorem Steps.to_pending {p : Phase α} {signal : Bool} : Steps en en' p .pending signal where
  tests := fun c hc => by cases hc
  sleeps := fun c hc => by cases hc
  meets := Or.inl rfl
  stays := fun _ => Or.inl rfl

/-- The phases after a step of `t`. -/
def after [DecidableEq ι] (ph : ι → Phase α) (t : ι) (p' : Phase α) (signal : Bool) :
    ι → Phase α :=
  Function.update (fun u => if signal then (ph u).wake else ph u) t p'

variable [DecidableEq ι] {t : ι} {p' : Phase α} {signal : Bool}

theorem after_self : after ph t p' signal t = p' := by
  simp [after]

theorem after_ne {u : ι} (hu : u ≠ t) :
    after ph t p' signal u = if signal then (ph u).wake else ph u := by
  simp [after, Function.update_of_ne hu]

/-- Other threads that owe a broadcast still owe it after a step of `t`. -/
theorem due_after {u : ι} (hu : u ≠ t) (hp : ph u = .pending) : Due (after ph t p' signal) := by
  refine ⟨u, ?_⟩
  rw [after_ne hu, hp]
  cases signal <;> rfl

/-- Who waits after a step of another thread has waited before; if the step was a broadcast,
    only between test and sleep. -/
theorem waiting_of_after {u : ι} {c : α} (hu : u ≠ t)
    (h : after ph t p' signal u = .tested c ∨ after ph t p' signal u = .asleep c) :
    ph u = .tested c ∨ (ph u = .asleep c ∧ signal = false) := by
  rw [after_ne hu] at h
  cases signal with
  | false => simpa using h
  | true =>
    cases hp : ph u <;> simp_all [Phase.wake]

/-- **Step.**  A step that is not a missed broadcast keeps `Safe`. -/
theorem Safe.step (hs : Safe ph en) (h : Steps en en' (ph t) p' signal)
    (hmiss : signal = true → ph t = .pending → ¬ Missed ph en t) :
    Safe (after ph t p' signal) en' := by
  intro u c hc hen'
  by_cases hpend : p' = .pending
  · -- the thread that moved is going to broadcast
    exact ⟨t, by rw [after_self, hpend]⟩
  have hen : en c := (h.meets.resolve_left hpend) c hen'
  by_cases hu : u = t
  · -- the thread that moved: it waits only if it did before
    subst hu
    rw [after_self] at hc
    have hbefore : ph u = .tested c ∨ ph u = .asleep c := by
      rcases hc with hc | hc
      · exact Or.inl (h.tests c hc hen')
      · exact h.sleeps c hc
    obtain ⟨v, hv⟩ := hs u c hbefore hen
    have hvu : v ≠ u := by
      rintro rfl
      rcases hbefore with hb | hb <;> rw [hv] at hb <;> cases hb
    exact due_after hvu hv
  · have hbefore := waiting_of_after hu hc
    have hwaits : ph u = .tested c ∨ ph u = .asleep c := by
      rcases hbefore with hb | ⟨hb, _⟩
      · exact Or.inl hb
      · exact Or.inr hb
    obtain ⟨v, hv⟩ := hs u c hwaits hen
    by_cases hvt : v = t
    · -- the broadcast that `u` counted on is being sent
      subst hvt
      have hsig : signal = true := (h.stays hv).resolve_left hpend
      have htested : ph u = .tested c := by
        rcases hbefore with hb | ⟨_, hb⟩
        · exact hb
        · rw [hsig] at hb; cases hb
      have hother : ∃ w, w ≠ v ∧ ph w = .pending := by
        by_contra hno
        refine hmiss hsig hv ⟨⟨u, c, htested, hen⟩, ?_⟩
        intro w hw hpw
        exact hno ⟨w, hw, hpw⟩
      obtain ⟨w, hw, hpw⟩ := hother
      exact due_after hw hpw
    · exact due_after hvt hv

/-- A missed broadcast loses a wake-up: the thread it could not wake falls asleep next. -/
theorem Missed.lost (hm : Missed ph en t) (ht : ph t = .pending) :
    ∃ u c, u ≠ t ∧ ph u = .tested c ∧
      Lost (after (after ph t .other true) u (.asleep c) false) en := by
  obtain ⟨⟨u, c, hu, hc⟩, hnone⟩ := hm
  have hut : u ≠ t := by
    rintro rfl
    rw [ht] at hu
    cases hu
  refine ⟨u, c, hut, hu, u, c, after_self, hc, ?_⟩
  -- nobody else was going to broadcast, and being woken up does not make one do so
  rintro ⟨v, hv⟩
  by_cases hvu : v = u
  · subst hvu
    rw [after_self] at hv
    cases hv
  rw [after_ne hvu] at hv
  by_cases hvt : v = t
  · subst hvt
    rw [after_self] at hv
    cases hv
  · rw [after_ne hvt] at hv
    have hwake : (ph v).wake = .pending := by simpa using hv
    refine hnone v hvt ?_
    cases hp : ph v with
    | pending => rfl
    | _ => rw [hp] at hwake; cases hwake

end Lib.CondVar
