import Mathlib.Data.List.Basic
import Mathlib.Logic.Function.Basic

namespace Lib.Streaming

/-!
# Streaming hashes

A hash that takes a message letter by letter: a state is updated by a `step` for every letter, from
a seed on.  If no step loses anything of the state or of the letter, then the hash of a message
loses nothing of the seed, and a single changed letter is seen whatever follows it.

* `foldl_bijective` — the state after a message determines the state before it.
* `foldl_ne` — one changed letter.
* `lossless_foldl` — both, with the append law, as one property `Lossless` of the hash.
-/

variable {σ β : Type*} {step : σ → β → σ} {xs ys : List β}

/-! ### States -/

/-- If every letter can be undone, so can a whole word. -/
theorem foldl_injective (h : ∀ b, Function.Injective (step · b)) (xs : List β) :
    Function.Injective fun s => xs.foldl step s := by
  induction xs with
  | nil => exact fun _ _ hs => hs
  | cons b xs ih =>
    intro s s' hs
    exact h b (ih hs)

/-- If every state is reached by every letter, it is reached by every word. -/
theorem foldl_surjective (h : ∀ b, Function.Surjective (step · b)) (xs : List β) :
    Function.Surjective fun s => xs.foldl step s := by
  induction xs with
  | nil => exact fun s => ⟨s, rfl⟩
  | cons b xs ih =>
    intro s
    obtain ⟨mid, hmid⟩ := ih s
    obtain ⟨first, hfirst⟩ := h b mid
    refine ⟨first, ?_⟩
    show xs.foldl step (step first b) = s
    rw [show step first b = mid from hfirst]
    exact hmid

/-- So a word permutes the states if its letters do. -/
theorem foldl_bijective (h : ∀ b, Function.Bijective (step · b)) (xs : List β) :
    Function.Bijective fun s => xs.foldl step s :=
  ⟨foldl_injective (fun b => (h b).1) xs, foldl_surjective (fun b => (h b).2) xs⟩

/-! ### One letter -/

/-- Two lists of one length that differ in exactly one position are the same before and after it. -/
theorem exists_eq_append_cons (hlen : xs.length = ys.length) (h : ∃! i : ℕ, xs[i]? ≠ ys[i]?) :
    ∃ pre a b post, a ≠ b ∧ xs = pre ++ a :: post ∧ ys = pre ++ b :: post := by
  obtain ⟨i, hi, huniq⟩ := h
  have hsame : ∀ j, j ≠ i → xs[j]? = ys[j]? := by
    intro j hj
    by_contra hne
    exact hj (huniq j hne)
  -- behind the end both have nothing, which is no difference
  have hix : i < xs.length := by
    by_contra hge
    have hle := Nat.le_of_not_lt hge
    exact hi (by rw [List.getElem?_eq_none hle, List.getElem?_eq_none (hlen ▸ hle)])
  have hiy : i < ys.length := hlen ▸ hix
  have htake : xs.take i = ys.take i := by
    apply List.ext_getElem?
    intro j
    by_cases hj : j < i
    · rw [List.getElem?_take_of_lt hj, List.getElem?_take_of_lt hj]
      exact hsame j (by omega)
    · rw [List.getElem?_eq_none (by simp; omega), List.getElem?_eq_none (by simp; omega)]
  have hdrop : xs.drop (i + 1) = ys.drop (i + 1) := by
    apply List.ext_getElem?
    intro j
    rw [List.getElem?_drop, List.getElem?_drop]
    exact hsame _ (by omega)
  refine ⟨xs.take i, xs[i], ys[i], xs.drop (i + 1), ?_, ?_, ?_⟩
  · intro heq
    exact hi (by rw [List.getElem?_eq_getElem hix, List.getElem?_eq_getElem hiy, heq])
  · rw [← List.drop_eq_getElem_cons hix, List.take_append_drop]
  · rw [htake, hdrop, ← List.drop_eq_getElem_cons hiy, List.take_append_drop]

/-- **One letter.**  The states differ behind the changed letter, and stay different. -/
theorem foldl_ne (hstate : ∀ b, Function.Injective (step · b))
    (hletter : ∀ s, Function.Injective (step s)) {a b : β} (hab : a ≠ b) (pre post : List β)
    (s : σ) : (pre ++ a :: post).foldl step s ≠ (pre ++ b :: post).foldl step s := by
  intro h
  rw [List.foldl_append, List.foldl_append, List.foldl_cons, List.foldl_cons] at h
  exact hab (hletter _ (foldl_injective hstate post h))

/-! ### The property -/

/-- A hash with a seed that can be continued, loses nothing of the seed and sees every change of a
    single letter. -/
structure Lossless (hash : List β → σ → σ) : Prop where
  append : ∀ xs ys seed, hash (xs ++ ys) seed = hash ys (hash xs seed)
  bijective : ∀ xs, Function.Bijective (hash xs)
  separates : ∀ xs ys, xs.length = ys.length → (∃! i : ℕ, xs[i]? ≠ ys[i]?) →
    ∀ seed, hash xs seed ≠ hash ys seed

/-- A fold of such steps, in which in addition letters can be told apart, is lossless. -/
theorem lossless_foldl (hstate : ∀ b, Function.Bijective (step · b))
    (hletter : ∀ s, Function.Injective (step s)) :
    Lossless fun xs seed => xs.foldl step seed where
  append xs ys seed := List.foldl_append
  bijective := foldl_bijective hstate
  separates xs ys hlen h seed := by
    obtain ⟨pre, a, b, post, hab, rfl, rfl⟩ := exists_eq_append_cons hlen h
    exact foldl_ne (fun b => (hstate b).1) hletter hab pre post seed

end Lib.Streaming
