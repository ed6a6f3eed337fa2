import Niuchacz.Queue.Fifo

namespace Niuchacz.Queue

open Lib.Transition

/-!
# Sizes at the limits

`queue_write` adds the size of the header to the size of the message in `size_t`, and both
`queue_write` and `queue_read` return a `size_t` as an `int`.  What this means for messages of `n`
bytes, in every run in which they are written along with others:

* `SizesSound` — they are stored only if they fit, and both functions return `n` for them.
* `stores_fits` — what is stored fits, for no size that wraps around gets past the checksum.
* `wrapped_size_faults` — where such a size ends.
* `sizes_sound_iff` — for which capacities and sizes all is well.
-/

variable {ι : Type} {t : ι} {cap n : ℕ}

/-- Messages of `n` bytes are handled well in this state: a producer goes on to store one only if
    it fits, `queue_write` returns `n` for a stored one, and so does every finished `queue_read`
    that has delivered it. -/
structure SizesSound [DecidableEq ι] (cap n : ℕ) (s : State ι) : Prop where
  guarded : ∀ t e timed p, s.pc t = .write e timed p → p.stores = true → e.buf.length = n →
    n + 16 < cap
  written : ∀ t e timed s', s.pc t = .write e timed .broadcast → e.buf.length = n →
    step s (t, .go) = some s' → s'.q.writeReturns = s.q.writeReturns ++ [(e.buf, (n : ℤ))]
  read : ∀ e ∈ s.q.accepted, e.buf.length = n → ∀ r ∈ s.q.readReturns,
    r.payload = some e.buf → r.ret = n

/-- They are so in every run of any number of threads, whatever other messages they write. -/
def AlwaysSound (cap n : ℕ) : Prop :=
  ∀ (ι : Type) [DecidableEq ι] (h : List (State ι × ι × Act)) (s : State ι),
    Run step (queueCreate ι cap) h s → SizesSound cap n s

section
variable [DecidableEq ι] {s : State ι} {h : List (State ι × ι × Act)}

/-- **Run.**  A producer goes on to store only what fits, and nothing else is ever stored,
    whatever the sizes of the buffers are. -/
theorem stores_fits (hcap : cap < 2 ^ 64) (hr : Run step (queueCreate ι cap) h s) :
    (∀ t e timed p, s.pc t = .write e timed p → p.stores = true → e.buf.length + 16 < cap) ∧
    ∀ e ∈ s.q.accepted, e.buf.length + 16 < cap := by
  have hg := good_run hcap hr
  constructor
  · intro t e timed p hp hstores
    have hknows := hg.knows t
    rw [hp] at hknows
    rw [Nat.add_comm]
    exact hknows.2 hstores
  · intro e he
    rw [Nat.add_comm]
    exact hg.shows.fits he

/-- What a `queue_write` returns for the message that it has stored. -/
theorem writeReturns_broadcast {s' : State ι} {e : Entry} {timed : Bool}
    (hp : s.pc t = .write e timed .broadcast) (hs : step s (t, .go) = some s') :
    s'.q.writeReturns = s.q.writeReturns ++ [(e.buf, toInt e.buf.length)] := by
  obtain ⟨o, ho, rfl⟩ := Option.map_eq_some_iff.mp hs
  rcases (outcome_some ho).2 with ⟨c, hc, -, -⟩ | ⟨-, hgo⟩ | ⟨timedOut, hc, -⟩
  · cases hc
  · dsimp only at hgo
    rw [hp] at hgo
    cases hgo
    rfl
  · cases hc

/-- A size that does not fit is never stored, so there is nothing to return. -/
theorem sizesSound_of_large (hcap : cap < 2 ^ 64) (hr : Run step (queueCreate ι cap) h s)
    (hlarge : cap ≤ n + 16) : SizesSound cap n s := by
  obtain ⟨hstores, haccepted⟩ := stores_fits hcap hr
  exact {
    guarded := fun t e timed p hp hs hlen => hlen ▸ hstores t e timed p hp hs
    written := by
      intro t e timed s' hp hlen
      have hfit := hstores t e timed _ hp rfl
      omega
    read := by
      intro e he hlen
      have hfit := haccepted e he
      omega }

/-- A size below `2 ^ 31` is returned as it is. -/
theorem sizesSound_of_small (hcap : cap < 2 ^ 64) (hr : Run step (queueCreate ι cap) h s)
    (hsmall : n < 2 ^ 31) : SizesSound cap n s := by
  have hint : toInt n = n := (toInt_eq_self_iff n).mpr hsmall
  exact {
    guarded := fun t e timed p hp hs hlen => hlen ▸ (stores_fits hcap hr).1 t e timed p hp hs
    written := by
      intro t e timed s' hp hlen hs
      rw [writeReturns_broadcast hp hs, hlen, hint]
    read := by
      intro e _ hlen r hr' hpayload
      have hhonest := (good_run hcap hr).returned r hr'
      rw [ReadReturn.Honest, hpayload] at hhonest
      rw [hhonest.2, hlen, hint] }

end

/-- **A size that wraps around.**  A message of `2 ^ 64 - 16` bytes or more is never stored.  If
    what is left of its size is below the capacity, the test lets it pass, and the call does not
    return: the process ends in the checksum. -/
theorem wrapped_size_faults (hcap : cap < 2 ^ 64) {e : Entry}
    (hwrap : 2 ^ 64 ≤ e.buf.length + 16) :
    (∀ (ι : Type) [DecidableEq ι] (h : List (State ι × ι × Act)) (s : State ι),
      Run step (queueCreate ι cap) h s → e ∉ s.q.accepted ∧
        ∀ t timed p, s.pc t = .write e timed p → p.stores = false) ∧
    (e.entrySize < cap →
      ∃ h s, Run step (queueCreate Unit cap) h s ∧ s.pc () = .write e false .fault) := by
  constructor
  · intro ι _ h s hr
    obtain ⟨hstores, haccepted⟩ := stores_fits hcap hr
    refine ⟨fun he => ?_, fun t timed p hp => ?_⟩
    · have hfit := haccepted e he
      omega
    · by_contra hs
      have hfit := hstores t e timed p hp (by simpa using hs)
      omega
  · intro hsize
    have hunreadable : ¬ e.readable = true := by
      rw [readable_iff, headerSize]
      omega
    -- the states after the call and after the test of the size
    let s₀ := queueCreate Unit cap
    let s₁ := s₀.apply () ⟨s₀.q, .write e false .entry, none⟩
    let s₂ := s₁.apply () ⟨s₁.q, .write e false .crc, none⟩
    have h₁ : step s₀ ((), .call (.write e false)) = some s₁ := rfl
    have h₂ : step s₁ ((), .go) = some s₂ := step_go rfl rfl (if_neg (Nat.not_le.mpr hsize))
    have h₃ : step s₂ ((), .go) = some (s₂.apply () ⟨s₂.q, .write e false .fault, none⟩) :=
      step_go rfl rfl (if_neg hunreadable)
    exact ⟨_, _, ((Run.nil.snoc h₁).snoc h₂).snoc h₃, rfl⟩

/-- **Sizes are sound at the limits** exactly if the message does not fit, so that it is not
    stored, or has fewer than `2 ^ 31` bytes. -/
theorem sizes_sound_iff (hcap : cap < 2 ^ 64) :
    AlwaysSound cap n ↔ cap ≤ n + 16 ∨ n < 2 ^ 31 := by
  constructor
  · intro hsound
    by_contra hnot
    obtain ⟨hlt, hge⟩ := not_or.mp hnot
    obtain ⟨e, hlen⟩ : ∃ e : Entry, e.buf.length = n := ⟨⟨List.replicate n 0, 0⟩, by simp⟩
    have hfit : headerSize + e.buf.length < cap := by
      rw [hlen, headerSize]
      omega
    -- the message is stored, and returned as a negative number or one that is too small
    obtain ⟨h, s, hr, -, -, hf, -, -, hpc⟩ :=
      reach_store hcap hfit (queueCreate Unit cap) (good_queueCreate cap) rfl ⟨rfl, rfl, rfl⟩
    have hstep := step_go hf hpc rfl
    have hret := (hsound Unit h s hr).written () e false _ hpc hlen hstep
    rw [writeReturns_broadcast hpc hstep, hlen] at hret
    have hint : toInt n = n := by simpa using hret
    exact hge ((toInt_eq_self_iff n).mp hint)
  · rintro (hlarge | hsmall) ι _ h s hr
    · exact sizesSound_of_large hcap hr hlarge
    · exact sizesSound_of_small hcap hr hsmall

/-- Messages of ten bytes in a queue of 64. -/
theorem sizes_sound_ten : AlwaysSound 64 10 :=
  (sizes_sound_iff (by decide)).mpr (Or.inr (by decide))

/-- A message of `2 ^ 31` bytes goes through a queue of `2 ^ 32`: first `queue_write` and then
    `queue_read` returns `-2 ^ 31` for it. -/
theorem size_returned_negative :
    ∃ buf : List UInt8, buf.length = 2 ^ 31 ∧
    ∃ h s, Run step (queueCreate Unit (2 ^ 32)) h s ∧ (buf, -2 ^ 31) ∈ s.q.writeReturns ∧
    ∃ h' s', Run step s h' s' ∧ ⟨some buf, -2 ^ 31⟩ ∈ s'.q.readReturns := by
  obtain ⟨buf, hlen⟩ : ∃ buf : List UInt8, buf.length = 2 ^ 31 :=
    ⟨List.replicate _ 0, List.length_replicate⟩
  have hcap : 2 ^ 32 < 2 ^ 64 := by decide
  have hint : toInt buf.length = -2 ^ 31 := by
    rw [hlen]
    decide
  obtain ⟨h, s, hr, -, hg, hf, hhere, hwritten⟩ :=
    reach_write (e := ⟨buf, 0⟩) hcap (by rw [hlen]; decide) (queueCreate Unit (2 ^ 32))
      (good_queueCreate _) rfl ⟨rfl, rfl, rfl⟩
  obtain ⟨h', s', hr', -, hg', -, buf', ret, hacc, hcomp, hmem⟩ := reach_read hcap s hg hf hhere
  -- what has been read is what was stored
  have hprefix := hg'.shows.completed_prefix
  rw [hacc, hcomp] at hprefix
  obtain rfl : buf' = buf := by simpa using hprefix
  have hret : ret = -2 ^ 31 := (hg'.returned _ hmem).2.trans hint
  rw [hint] at hwritten
  exact ⟨buf', hlen, h, s, hr, hwritten, h', s', hr', hret ▸ hmem⟩

end Niuchacz.Queue
