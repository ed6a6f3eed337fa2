import Mathlib.Data.List.Basic
import Mathlib.Logic.Function.Basic
import Mathlib.Order.Bounds.Basic

namespace Lib.Transition

/-!
# Runs of a labelled transition system

A system is a partial step function `step : σ → ℓ → Option σ`: the label says who moves
and resolves every choice the mover has, and `none` means that the move is not possible
in this state.  A run is kept together with its **history**, the list of the states left
and the labels taken, so that a condition on the steps of a run (`∀ p ∈ h, ok p.1 p.2`)
and a property of every state it passes can be stated about the same object.

* `Run step s₀ h s` — the run with history `h` leads from `s₀` to `s`.
* `Run.invariant` — the invariant rule, for runs whose steps all meet a condition.
* `Run.reached` — every state of the history is itself the end of a run.
* `Run.isGreatest` — a quantity that keeps the largest value of another one.
* `each` — any number of copies of a system side by side, with their invariant rule.
* `play` — executes a list of labels, for runs on concrete inputs.
-/

variable {σ ℓ : Type*} {step : σ → ℓ → Option σ} {s₀ s : σ} {h : List (σ × ℓ)}

/-- `Run step s₀ h s`: taking the labels of `h` in order leads from `s₀` to `s`; each entry
    of `h` is the state before a step together with the label of the step. -/
inductive Run (step : σ → ℓ → Option σ) (s₀ : σ) : List (σ × ℓ) → σ → Prop
  | nil : Run step s₀ [] s₀
  | snoc {h : List (σ × ℓ)} {s s' : σ} {l : ℓ} :
      Run step s₀ h s → step s l = some s' → Run step s₀ (h ++ [(s, l)]) s'

/-- **Invariant rule.**  A property that holds initially and is kept by every step that meets
    `ok` holds at the end of every run whose steps all meet `ok`. -/
theorem Run.invariant (ok : σ → ℓ → Prop) (I : σ → Prop) (h₀ : I s₀)
    (hstep : ∀ s l s', I s → ok s l → step s l = some s' → I s')
    (hr : Run step s₀ h s) (hok : ∀ p ∈ h, ok p.1 p.2) : I s := by
  induction hr with
  | nil => exact h₀
  | @snoc h s s' l _ hs ih =>
    have hl : ok s l := hok (s, l) (by simp)
    exact hstep s l s' (ih fun p hp => hok p (by simp [hp])) hl hs

/-- Every entry of a history splits it: the run up to that entry ends in the entry's state. -/
theorem Run.reached (hr : Run step s₀ h s) {p : σ × ℓ} (hp : p ∈ h) :
    ∃ h₁ h₂, h = h₁ ++ p :: h₂ ∧ Run step s₀ h₁ p.1 := by
  induction hr with
  | nil => exact absurd hp (by simp)
  | @snoc h s s' l hr' hs ih =>
    rw [List.mem_append, List.mem_singleton] at hp
    rcases hp with hp | rfl
    · obtain ⟨h₁, h₂, rfl, hrun⟩ := ih hp
      exact ⟨h₁, h₂ ++ [(s, l)], by simp, hrun⟩
    · exact ⟨h, [], rfl, hr'⟩

/-- One run after another. -/
theorem Run.trans {s' : σ} {h' : List (σ × ℓ)} (hr : Run step s₀ h s) (hr' : Run step s h' s') :
    Run step s₀ (h ++ h') s' := by
  induction hr' with
  | nil => simpa using hr
  | snoc _ hs ih => rw [← List.append_assoc]; exact ih.snoc hs

/-- A single step is a run. -/
theorem Run.single {s' : σ} {l : ℓ} (hs : step s l = some s') : Run step s [(s, l)] s' :=
  Run.snoc Run.nil hs

/-! ### Largest values -/

section
variable {α : Type*} {f g : σ → α}

/-- The values that `f` has had along a run. -/
def passed (f : σ → α) (h : List (σ × ℓ)) (s : σ) : Set α := {a | (∃ p ∈ h, f p.1 = a) ∨ f s = a}

theorem passed_snoc (s s' : σ) (l : ℓ) :
    passed f (h ++ [(s, l)]) s' = passed f h s ∪ {f s'} := by
  ext a
  simp only [passed, List.mem_append, List.mem_singleton, or_and_right, exists_or,
    exists_eq_left, Set.mem_union, Set.mem_ofPred_eq, Set.mem_singleton_iff, eq_comm]

/-- A quantity `g` that starts as `f` and then follows the values of `f` upwards is the largest
    value that `f` has had. -/
theorem Run.isGreatest [LinearOrder α] (ok : σ → ℓ → Prop) (I : σ → Prop) (h₀ : I s₀)
    (hstep : ∀ s l s', I s → ok s l → step s l = some s' → I s') (hg₀ : g s₀ = f s₀)
    (hg : ∀ s l s', I s → ok s l → step s l = some s' → f s ≤ g s → g s' = max (g s) (f s'))
    (hr : Run step s₀ h s) (hok : ∀ p ∈ h, ok p.1 p.2) : IsGreatest (passed f h s) (g s) := by
  induction hr with
  | nil =>
    rw [hg₀]
    refine ⟨Or.inr rfl, ?_⟩
    rintro a (⟨p, hp, -⟩ | rfl)
    · exact absurd hp (by simp)
    · exact le_rfl
  | @snoc h s s' l hr hs ih =>
    have hok' : ∀ p ∈ h, ok p.1 p.2 := fun p hp => hok p (by simp [hp])
    have hmax := ih hok'
    have hI : I s := hr.invariant ok I h₀ hstep hok'
    rw [passed_snoc, hg s l s' hI (hok (s, l) (by simp)) hs (hmax.2 (Or.inr rfl))]
    exact hmax.union isGreatest_singleton

end

/-! ### Independent components

Any number of copies of one system, each with a state of its own; a label says which one moves.
-/

section
variable {κ : Type*} [DecidableEq κ]

/-- One step of one component. -/
def each (step : σ → ℓ → Option σ) (s : κ → σ) (l : κ × ℓ) : Option (κ → σ) :=
  (step (s l.1) l.2).map (Function.update s l.1)

/-- **Invariant rule for components.**  What one component's steps keep holds of all of them. -/
theorem Run.invariant_each {x₀ : σ} {s : κ → σ} {h : List ((κ → σ) × κ × ℓ)} (ok : σ → ℓ → Prop)
    (I : σ → Prop) (h₀ : I x₀) (hstep : ∀ x l x', I x → ok x l → step x l = some x' → I x')
    (hr : Run (each step) (fun _ => x₀) h s) (hok : ∀ p ∈ h, ok (p.1 p.2.1) p.2.2) (c : κ) :
    I (s c) := by
  refine hr.invariant (fun s l => ok (s l.1) l.2) (fun s => ∀ c, I (s c)) (fun _ => h₀) ?_ hok c
  intro s l s' hI hl hs c
  obtain ⟨x, hx, rfl⟩ := Option.map_eq_some_iff.mp hs
  by_cases hc : c = l.1
  · subst hc
    rw [Function.update_self]
    exact hstep _ _ _ (hI _) hl hx
  · rw [Function.update_of_ne hc]
    exact hI c

/-- The same for every state that a run passes. -/
theorem Run.invariant_each_reached {x₀ : σ} {s : κ → σ} {h : List ((κ → σ) × κ × ℓ)}
    (ok : σ → ℓ → Prop) (I : σ → Prop) (h₀ : I x₀)
    (hstep : ∀ x l x', I x → ok x l → step x l = some x' → I x')
    (hr : Run (each step) (fun _ => x₀) h s) (hok : ∀ p ∈ h, ok (p.1 p.2.1) p.2.2)
    {p : (κ → σ) × κ × ℓ} (hp : p ∈ h) (c : κ) : I (p.1 c) := by
  obtain ⟨h₁, h₂, rfl, hrun⟩ := hr.reached hp
  exact hrun.invariant_each ok I h₀ hstep (fun q hq => hok q (by simp [hq])) c

end

/-! ### Concrete runs -/

/-- Take a list of labels in order, as long as every step is possible and meets `ok`. -/
def play (step : σ → ℓ → Option σ) (ok : σ → ℓ → Bool) : σ → List ℓ → Option σ
  | s, [] => some s
  | s, l :: ls => if ok s l then (step s l).bind (play step ok · ls) else none

/-- What `play` reaches is reached by a run whose steps all meet `ok`. -/
theorem run_of_play {ok : σ → ℓ → Bool} {ls : List ℓ} (hp : play step ok s₀ ls = some s) :
    ∃ h, Run step s₀ h s ∧ ∀ p ∈ h, ok p.1 p.2 = true := by
  -- over the labels, from the first step on
  induction ls generalizing s₀ with
  | nil =>
    simp only [play, Option.some.injEq] at hp
    subst hp
    exact ⟨[], Run.nil, by simp⟩
  | cons l ls ih =>
    simp only [play] at hp
    split at hp
    · rename_i hl
      obtain ⟨s₁, hs₁, hp⟩ := Option.bind_eq_some_iff.mp hp
      obtain ⟨h, hr, hok⟩ := ih hp
      refine ⟨(s₀, l) :: h, (Run.single hs₁).trans hr, ?_⟩
      intro p hmem
      rcases List.mem_cons.mp hmem with rfl | hmem
      · exact hl
      · exact hok p hmem
    · exact absurd hp (by simp)

/-- Runs whose steps meet `ok`, one after the other. -/
theorem exists_run_trans {ok : σ → ℓ → Bool} {s₁ s₂ : σ}
    (h₁ : ∃ h, Run step s₀ h s₁ ∧ ∀ p ∈ h, ok p.1 p.2 = true)
    (h₂ : ∃ h, Run step s₁ h s₂ ∧ ∀ p ∈ h, ok p.1 p.2 = true) :
    ∃ h, Run step s₀ h s₂ ∧ ∀ p ∈ h, ok p.1 p.2 = true := by
  obtain ⟨h, hr, hok⟩ := h₁
  obtain ⟨h', hr', hok'⟩ := h₂
  refine ⟨h ++ h', hr.trans hr', ?_⟩
  intro p hp
  rcases List.mem_append.mp hp with hp | hp
  · exact hok p hp
  · exact hok' p hp

/-- A list of labels that can be played to a state with `bad` gives a run to such a state. -/
theorem exists_run_of_play (step : σ → ℓ → Option σ) (s₀ : σ) (ok : σ → ℓ → Bool)
    (bad : σ → Bool) (ls : List ℓ)
    (hp : (play step ok s₀ ls).any bad = true) :
    ∃ h s, Run step s₀ h s ∧ (∀ p ∈ h, ok p.1 p.2 = true) ∧ bad s = true := by
  cases hs : play step ok s₀ ls with
  | none => simp [hs] at hp
  | some s =>
    obtain ⟨h, hr, hok⟩ := run_of_play hs
    exact ⟨h, s, hr, hok, by simpa [hs] using hp⟩

end Lib.Transition
