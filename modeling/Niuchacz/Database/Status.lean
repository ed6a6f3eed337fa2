import Niuchacz.Database.Exec

namespace Niuchacz.Database

open SvcKernel

/-!
# What the result of a statement says (`svc_kernel/database/database.c`)

`i_dbExec` decides about its result with a counter of the successful steps and with the result of
`sqlite3_finalize`; what the callback has returned ends the loop, but is then overwritten.

* `statsUpdate`, `i_dbExec` — the call with the statistics of the database.
* `execLoop_cases` — the two ways in which the loop ends.
* `status_truthful` — when the result tells whether the statement has succeeded, and what is
  counted.
-/

/-! ### The call with its statistics -/

/-- `_flags` of a `stats_entry_t`. -/
inductive StatsType where
  | sum | last

/-- `stats_entry_t`. -/
structure StatsEntry where
  flags : StatsType
  value : UInt64

/-- `statsUpdate`. -/
def statsUpdate (p_entry : StatsEntry) (value : UInt64) : StatsEntry :=
  match p_entry.flags with
  | .sum => { p_entry with value := p_entry.value + value }
  | .last => { p_entry with value := value }

/-- The numbers of calls that a database counts; `i_dbMount` makes both of them sums. -/
structure DbStats where
  dbExec : StatsEntry
  dbExecFail : StatsEntry
  dbExec_sum : dbExec.flags = .sum
  dbExecFail_sum : dbExecFail.flags = .sum

/-- Unfolding lemma: a report does not change the kind of the entry. -/
theorem flags_statsUpdate (e : StatsEntry) (value : UInt64) :
    (statsUpdate e value).flags = e.flags := by
  unfold statsUpdate
  split <;> simp_all

theorem value_statsUpdate {e : StatsEntry} (h : e.flags = .sum) (value : UInt64) :
    (statsUpdate e value).value = e.value + value := by
  rw [statsUpdate, h]

/-- What is counted behind the label `__dbExec_cleanup`. -/
def DbStats.cleanup (stats : DbStats) (status : KStatus) : DbStats where
  dbExec := statsUpdate stats.dbExec 1
  dbExecFail := if status ≠ .success then statsUpdate stats.dbExecFail 1 else stats.dbExecFail
  dbExec_sum := (flags_statsUpdate _ _).trans stats.dbExec_sum
  dbExecFail_sum := by
    split
    · exact (flags_statsUpdate _ _).trans stats.dbExecFail_sum
    · exact stats.dbExecFail_sum

section
variable {σ ρ : Type} (callback : σ → ρ → σ × Int32)

/-- `i_dbExec`: `param`, the result and the statistics, which are not touched unless the database
    is open. -/
def i_dbExec (opened : Bool) (ans : Answer) (bound : Option (List SqlValue)) (rows : List ρ)
    (param : σ) (stats : DbStats) : σ × KStatus × DbStats :=
  let r := dbExec callback opened ans bound rows param
  (r.1, r.2, if opened then stats.cleanup r.2 else stats)

/-! ### The loop -/

/-- The statement has been prepared and its variables have been bound. -/
def Ready (ans : Answer) (bound : Option (List SqlValue)) : Prop :=
  ans.prepares = true ∧ ans.binds = true ∧ bound.isSome = true

/-- The loop for these answers. -/
def stepped (ans : Answer) (rows : List ρ) (param : σ) : Executed σ :=
  execLoop callback ans.failsAfter.isSome (ans.delivered rows) 0 param

variable {callback}

/-- **Run.**  The loop ends with a callback that fails, or with the last step after callbacks that
    have all returned 0. -/
theorem execLoop_cases (fails : Bool) (rows : List ρ) (rowCount : UInt32) (param : σ) :
    let r := execLoop callback fails rows rowCount param
    r.lastStep = .row ∧ (∃ rc ∈ r.callbacks, rc ≠ 0) ∧
        r.rowCount = rowCount + UInt32.ofNat r.callbacks.length ∨
      r.lastStep = (if fails then .error else .done) ∧ (∀ rc ∈ r.callbacks, rc = 0) ∧
        r.callbacks.length = rows.length ∧
        r.rowCount = rowCount + UInt32.ofNat (rows.length + if fails then 0 else 1) := by
  -- over the rows that are still to come
  induction rows generalizing rowCount param with
  | nil =>
    right
    cases fails <;> simp [execLoop]
  | cons row rows ih =>
    rw [execLoop]
    split
    -- a callback that returns something else than 0 ends the loop
    · rename_i hrc
      exact Or.inl ⟨rfl, ⟨_, List.mem_singleton_self _, hrc⟩, rfl⟩
    · rename_i hrc
      have hsucc : ∀ n, rowCount + 1 + UInt32.ofNat n = rowCount + UInt32.ofNat (n + 1) := by
        intro n
        rw [UInt32.ofNat_add, UInt32.add_assoc, UInt32.add_comm 1]
        rfl
      rcases ih (rowCount + 1) (callback param row).1 with ⟨hlast, ⟨rc, hmem, hne⟩, hcount⟩ |
        ⟨hlast, hall, hlen, hcount⟩
      · refine Or.inl ⟨hlast, ⟨rc, List.mem_cons_of_mem _ hmem, hne⟩, ?_⟩
        exact hcount.trans (hsucc _)
      · refine Or.inr ⟨hlast, ?_, congrArg (· + 1) hlen, ?_⟩
        · exact List.forall_mem_cons.mpr ⟨not_not.mp hrc, hall⟩
        · refine hcount.trans ((hsucc _).trans ?_)
          rw [List.length_cons, Nat.add_right_comm]

/-- The counter is 0 exactly if the number of steps is divisible by `2 ^ 32`. -/
theorem rowCount_eq_zero_iff (n : ℕ) : (0 : UInt32) + UInt32.ofNat n = 0 ↔ 2 ^ 32 ∣ n := by
  rw [UInt32.zero_add, ← UInt32.toNat_inj, UInt32.toNat_ofNat']
  exact (Nat.dvd_iff_mod_eq_zero).symm

/-- How the loop of a statement ends, and when the counter is 0 then. -/
theorem stepped_cases (callback : σ → ρ → σ × Int32) (ans : Answer) (rows : List ρ) (param : σ) :
    let r := stepped callback ans rows param
    (r.lastStep = .row ∧ (∃ rc ∈ r.callbacks, rc ≠ 0) ∧
        (r.rowCount = 0 ↔ 2 ^ 32 ∣ r.callbacks.length)) ∨
      (r.lastStep = .error ∧ (∀ rc ∈ r.callbacks, rc = 0) ∧ ans.failsAfter ≠ none) ∨
      (r.lastStep = .done ∧ (∀ rc ∈ r.callbacks, rc = 0) ∧ ans.failsAfter = none ∧
        (r.rowCount = 0 ↔ 2 ^ 32 ∣ rows.length + 1)) := by
  obtain ⟨prepares, binds, failsAfter⟩ := ans
  unfold stepped
  rcases execLoop_cases failsAfter.isSome (Answer.delivered ⟨prepares, binds, failsAfter⟩ rows) 0
    param with ⟨hlast, hne, hcount⟩ | ⟨hlast, hall, -, hcount⟩
  · refine Or.inl ⟨hlast, hne, ?_⟩
    rw [hcount, rowCount_eq_zero_iff]
  · right
    -- all rows have been delivered: sqlite fails then, or is done
    cases failsAfter with
    | some k => exact Or.inl ⟨hlast, hall, by simp⟩
    | none =>
      refine Or.inr ⟨hlast, hall, rfl, ?_⟩
      rw [hcount, rowCount_eq_zero_iff]
      rfl

/-- The result for an open database. -/
theorem status_success_iff (ans : Answer) (bound : Option (List SqlValue)) (rows : List ρ)
    (param : σ) :
    (dbExec callback true ans bound rows param).2 = .success ↔
      Ready ans bound ∧ (stepped callback ans rows param).rowCount ≠ 0 ∧
        (stepped callback ans rows param).lastStep ≠ .error := by
  obtain ⟨prepares, binds, failsAfter⟩ := ans
  cases prepares
  · simp [dbExec, Ready]
  cases binds
  · simp [dbExec, Ready]
  cases bound
  · simp [dbExec, Ready]
  simp only [dbExec, Ready, stepped, Bool.not_true, Bool.false_eq_true, if_false,
    Option.isNone_some, Bool.or_self, Option.isSome_some, true_and, Bool.or_eq_true,
    decide_eq_true_eq]
  split
  · rename_i h
    exact iff_of_false (by simp) fun hne => h.elim hne.1 hne.2
  · rename_i h
    exact iff_of_true rfl (not_or.mp h)

end

/-! ### The result -/

section
variable {σ ρ : Type} (callback : σ → ρ → σ × Int32)

/-- The statement has succeeded: it could be prepared and bound, stepping has got to
    `SQLITE_DONE`, and every callback has returned 0. -/
def Succeeded (ans : Answer) (bound : Option (List SqlValue)) (rows : List ρ) (param : σ) : Prop :=
  Ready ans bound ∧ (stepped callback ans rows param).lastStep = .done ∧
    ∀ rc ∈ (stepped callback ans rows param).callbacks, rc = 0

/-- **The result tells the truth**, for an open database, exactly if either no step has been made;
    or no callback has failed, and the number of steps of a statement that is done is not divisible
    by `2 ^ 32`; or a callback has failed, and the number of steps is divisible by `2 ^ 32`.  Each
    call is counted, and as a failure exactly if its result is one. -/
theorem status_truthful (ans : Answer) (bound : Option (List SqlValue)) (rows : List ρ) (param : σ)
    (stats : DbStats) :
    let r := i_dbExec callback true ans bound rows param stats
    let callbacks := (stepped callback ans rows param).callbacks
    ((r.2.1 = .success ↔ Succeeded callback ans bound rows param) ↔
      (Ready ans bound →
        ((∀ rc ∈ callbacks, rc = 0) → ans.failsAfter = none → ¬ 2 ^ 32 ∣ rows.length + 1) ∧
        ((∃ rc ∈ callbacks, rc ≠ 0) → 2 ^ 32 ∣ callbacks.length))) ∧
    r.2.2.dbExec.value = stats.dbExec.value + 1 ∧
    r.2.2.dbExecFail.value =
      if r.2.1 = .success then stats.dbExecFail.value else stats.dbExecFail.value + 1 := by
  refine ⟨?_, value_statsUpdate stats.dbExec_sum 1, ?_⟩
  · show ((dbExec callback true ans bound rows param).2 = .success ↔ _) ↔ _
    rw [status_success_iff, Succeeded]
    by_cases hready : Ready ans bound
    · simp only [hready, true_and, forall_const]
      rcases stepped_cases callback ans rows param with ⟨hlast, ⟨rc, hmem, hne⟩, hcount⟩ |
        ⟨hlast, hall, hfails⟩ | ⟨hlast, hall, hdone, hcount⟩
      · -- a callback has failed, and only the counter can tell
        have hnot : ¬ ∀ rc ∈ (stepped callback ans rows param).callbacks, rc = 0 :=
          fun hall => hne (hall rc hmem)
        have hex : ∃ rc ∈ (stepped callback ans rows param).callbacks, rc ≠ 0 := ⟨rc, hmem, hne⟩
        simp [hlast, hnot, hex, hcount]
      · -- the last step has failed, and so does `sqlite3_finalize`
        have hnot : ¬ ∃ rc ∈ (stepped callback ans rows param).callbacks, rc ≠ 0 :=
          fun ⟨rc, hmem, hne⟩ => hne (hall rc hmem)
        simp [hlast, hnot, hfails]
      · have hnot : ¬ ∃ rc ∈ (stepped callback ans rows param).callbacks, rc ≠ 0 :=
          fun ⟨rc, hmem, hne⟩ => hne (hall rc hmem)
        have htrue : (∀ rc ∈ (stepped callback ans rows param).callbacks, rc = 0) ↔ True :=
          iff_true_intro hall
        rw [htrue, hlast, Ne, hcount]
        simp [hnot, hdone]
    · simp [hready]
  · show (stats.cleanup (dbExec callback true ans bound rows param).2).dbExecFail.value = if
      (dbExec callback true ans bound rows param).2 = .success then _ else _
    rw [DbStats.cleanup]
    by_cases hok : (dbExec callback true ans bound rows param).2 = .success
    · simp only [hok, ne_eq, not_true_eq_false, if_false, if_true]
    · simp only [hok, ne_eq, not_false_eq_true, if_true, if_false]
      exact value_statsUpdate stats.dbExecFail_sum 1

/-- A callback that fails on the only row: the call succeeds. -/
theorem callback_error_not_reported :
    let callback : Unit → Unit → Unit × Int32 := fun param _ => (param, 1)
    (stepped callback .ok [()] ()).callbacks = [1] ∧
      (dbExec callback true .ok (some []) [()] ()).2 = .success ∧
      ¬ Succeeded callback .ok (some []) [()] () := by
  refine ⟨rfl, rfl, ?_⟩
  rintro ⟨-, hlast, -⟩
  cases hlast

end

end Niuchacz.Database
