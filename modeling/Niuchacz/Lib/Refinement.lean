import Niuchacz.Lib.Transition

namespace Lib.Refinement

open Lib.Transition

/-!
# Refinement

A service answers requests one after the other and keeps a state: `step : σ → ι → σ × ω`.  Another
one, over abstract states, says what it is for.

* `final`, `answers` — the state after a list of requests, and the answers on the way.
* `Simulates` — a relation between the states that every request keeps, with equal answers.
* `Simulates.run` — then the two cannot be told apart by any list of requests.

For transition systems, where the lower level takes steps of its own that the upper level does not
see:

* `stutter` — a run below is a run above, some of its steps left out.
* `expand` — a run above can be taken below, its steps spread out.
-/

variable {σ τ ι ω : Type*} {step : σ → ι → σ × ω} {spec : τ → ι → τ × ω}

/-- The state after the requests. -/
def final (step : σ → ι → σ × ω) (s : σ) (reqs : List ι) : σ :=
  reqs.foldl (fun s i => (step s i).1) s

/-- The answers to the requests. -/
def answers (step : σ → ι → σ × ω) : σ → List ι → List ω
  | _, [] => []
  | s, i :: reqs => (step s i).2 :: answers step (step s i).1 reqs

/-- Requests that meet `ok` keep the relation and are answered alike. -/
structure Simulates (step : σ → ι → σ × ω) (spec : τ → ι → τ × ω) (ok : ι → Prop)
    (R : σ → τ → Prop) : Prop where
  keeps : ∀ {s a i}, R s a → ok i → R (step s i).1 (spec a i).1
  answer : ∀ {s a i}, R s a → ok i → (step s i).2 = (spec a i).2

/-- **Refinement.**  From related states any requests are answered alike, and lead to related
    states. -/
theorem Simulates.run {ok : ι → Prop} {R : σ → τ → Prop} (h : Simulates step spec ok R) {s : σ}
    {a : τ} (hR : R s a) (reqs : List ι) (hok : ∀ i ∈ reqs, ok i) :
    answers step s reqs = answers spec a reqs ∧ R (final step s reqs) (final spec a reqs) := by
  induction reqs generalizing s a with
  | nil => exact ⟨rfl, hR⟩
  | cons i reqs ih =>
    have hi : ok i := hok i List.mem_cons_self
    obtain ⟨hanswers, hfinal⟩ := ih (h.keeps hR hi) fun j hj => hok j (List.mem_cons_of_mem i hj)
    refine ⟨?_, hfinal⟩
    simp only [answers]
    rw [h.answer hR hi, hanswers]

/-! ### Steps that the upper level does not see -/

section
variable {ℓ : Type*} {low : σ → ℓ → Option σ} {high : τ → ℓ → Option τ} {I : σ → Prop}
  {s₀ s : σ}

/-- **Stuttering.**  If every step below either leaves the abstract state alone or is the step
    above with the same label, then a run below is a run above that leaves steps out. -/
theorem stutter (abs : σ → τ) (h₀ : I s₀)
    (hstep : ∀ s l s', I s → low s l = some s' →
      I s' ∧ (abs s' = abs s ∨ high (abs s) l = some (abs s')))
    {h : List (σ × ℓ)} (hr : Run low s₀ h s) :
    I s ∧ ∃ h', Run high (abs s₀) h' (abs s) ∧ h'.Sublist (h.map fun p => (abs p.1, p.2)) := by
  induction hr with
  | nil => exact ⟨h₀, [], Run.nil, List.Sublist.refl _⟩
  | @snoc h s s' l _ hs ih =>
    obtain ⟨hI, h', hrun, hsub⟩ := ih
    obtain ⟨hI', hsame | htaken⟩ := hstep s l s' hI hs
    · refine ⟨hI', h', hsame ▸ hrun, ?_⟩
      rw [List.map_append]
      exact hsub.trans (List.sublist_append_left _ _)
    · refine ⟨hI', h' ++ [(abs s, l)], hrun.snoc htaken, ?_⟩
      rw [List.map_append]
      exact hsub.append (List.Sublist.refl _)

/-- **Expansion.**  If every step above can be taken below, by any number of steps with its label,
    then so can every run above. -/
theorem expand (abs : σ → τ) (h₀ : I s₀)
    (hstep : ∀ s l a, I s → high (abs s) l = some a →
      ∃ h s', Run low s h s' ∧ I s' ∧ abs s' = a ∧ ∀ p ∈ h, p.2 = l)
    {a : τ} {h' : List (τ × ℓ)} (hr : Run high (abs s₀) h' a) :
    ∃ h s, Run low s₀ h s ∧ I s ∧ abs s = a ∧ ∀ p ∈ h, ∃ q ∈ h', p.2 = q.2 := by
  induction hr with
  | nil => exact ⟨[], s₀, Run.nil, h₀, rfl, by simp⟩
  | @snoc h' a a' l _ hs ih =>
    obtain ⟨h, s, hrun, hI, rfl, hlabel⟩ := ih
    obtain ⟨h₂, s', hrun₂, hI', habs, hlabel₂⟩ := hstep s l a' hI hs
    refine ⟨h ++ h₂, s', hrun.trans hrun₂, hI', habs, ?_⟩
    intro p hp
    rcases List.mem_append.mp hp with hp | hp
    · obtain ⟨q, hq, hql⟩ := hlabel p hp
      exact ⟨q, List.mem_append_left _ hq, hql⟩
    · exact ⟨(abs s, l), by simp, hlabel₂ p hp⟩

end

end Lib.Refinement
