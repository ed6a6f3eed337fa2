import Mathlib.Data.List.Basic

namespace Lib.Blocks

/-!
# What happens to blocks of memory

A program that allocates, uses and frees blocks leaves a list of events.  A block is named by its
number and not by its address, which `malloc` may hand out again after a `free`.

* `life` — the events of one block.
* `ReleasedOnce` — the block is freed exactly once, and this is the last thing that happens to it;
  `releasedOnce_iff` makes this decidable.
-/

variable {ι : Type*} [DecidableEq ι] {i : ι}

/-- Something that happens to a block. -/
inductive Event (ι : Type*)
  | alloc (block : ι)
  | access (block : ι)
  | free (block : ι)
  deriving DecidableEq

/-- The block it happens to. -/
def Event.block : Event ι → ι
  | .alloc i => i
  | .access i => i
  | .free i => i

/-- What happens to the block `i`. -/
def life (i : ι) (events : List (Event ι)) : List (Event ι) := events.filter (·.block = i)

/-- The life of a block goes on with the later events. -/
@[simp] theorem life_append (events events' : List (Event ι)) :
    life i (events ++ events') = life i events ++ life i events' := List.filter_append ..

/-- If all events are about one block, they are its life. -/
theorem life_eq_self {events : List (Event ι)} (h : ∀ e ∈ events, e.block = i) :
    life i events = events := List.filter_eq_self.mpr fun e he => decide_eq_true (h e he)

/-- A block that no event is about has no life. -/
theorem life_eq_nil {events : List (Event ι)} (h : ∀ e ∈ events, e.block ≠ i) :
    life i events = [] :=
  List.filter_eq_nil_iff.mpr fun e he => by simpa using h e he

/-- The block is freed exactly once and not touched afterwards. -/
def ReleasedOnce (i : ι) (events : List (Event ι)) : Prop :=
  ∃ uses, life i events = uses ++ [.free i] ∧ .free i ∉ uses

/-- A block is released once if its last event frees it and no earlier one does. -/
theorem releasedOnce_iff {events : List (Event ι)} :
    ReleasedOnce i events ↔
      (life i events).getLast? = some (.free i) ∧ .free i ∉ (life i events).dropLast := by
  unfold ReleasedOnce
  rw [List.getLast?_eq_some_iff]
  constructor
  · rintro ⟨uses, h, hfree⟩
    rw [h, List.dropLast_concat]
    exact ⟨⟨uses, rfl⟩, hfree⟩
  · rintro ⟨⟨uses, h⟩, hfree⟩
    rw [h, List.dropLast_concat] at hfree
    exact ⟨uses, h, hfree⟩

instance (i : ι) (events : List (Event ι)) : Decidable (ReleasedOnce i events) :=
  decidable_of_iff _ releasedOnce_iff.symm

/-- What happens to other blocks does not matter. -/
theorem releasedOnce_append_left {events events' : List (Event ι)}
    (h : ∀ e ∈ events', e.block ≠ i) :
    ReleasedOnce i (events ++ events') ↔ ReleasedOnce i events := by
  rw [ReleasedOnce, life_append, life_eq_nil h, List.append_nil, ReleasedOnce]

/-- Nor does what has happened to other blocks before. -/
theorem releasedOnce_append_right {events events' : List (Event ι)}
    (h : ∀ e ∈ events, e.block ≠ i) :
    ReleasedOnce i (events ++ events') ↔ ReleasedOnce i events' := by
  rw [ReleasedOnce, life_append, life_eq_nil h, List.nil_append, ReleasedOnce]

end Lib.Blocks
