import Niuchacz.SvcKernel
import Mathlib.Algebra.Group.Nat.Defs

namespace Niuchacz.Database

open SvcKernel

/-!
# Executing statements (`svc_kernel/database/database.c`)

`dbExec` and `dbExecQuery` prepare a statement, bind a variable list of arguments to its
parameters, step through the rows of the result with a callback, and finalize it.

* `SqlValue`, `BindArg` — values of the database and the `DB_BIND_` arguments.
* `bindVariables` — the loop of `i_dbExecBindVariables`; `bindVariables_eq` — it binds the first
  `bindCnt` parameters, and those that follow stay NULL.
* `dbExec` — `i_dbExec`, with the answers of sqlite and the rows of the result as arguments;
  `dbExec_of_ok` — when it succeeds with a callback that does not fail; `dbExec_keeps` — an
  invariant rule for callbacks.

What a statement does to the tables is said where the statement is.
-/

/-- What a column or a parameter holds. -/
inductive SqlValue where
  | null
  | int (n : Int64)
  | text (s : List UInt8)
  deriving DecidableEq

/-- `sqlite3_column_int64`.  Text in an integer column is not modelled: nothing stores it. -/
def SqlValue.columnInt64 : SqlValue → Int64
  | .int n => n
  | .null | .text _ => 0

/-- `sqlite3_column_int`: the low 32 bits. -/
def SqlValue.columnInt (v : SqlValue) : Int32 := v.columnInt64.toInt32

/-! ### Binding -/

/-- The arguments behind `bindCnt`: a tag, and a value unless it is `DB_BIND_NULL`. -/
inductive BindArg where
  | null
  | int64 (v : Int64)
  | int (v : Int32)
  | text (s : List UInt8)
  | stext (s : List UInt8)
  | unknown (tag : Int32)

/-- The value that is bound; a tag that does not exist is an error. -/
def BindArg.value : BindArg → Option SqlValue
  | .null => some .null
  | .int64 v => some (.int v)
  | .int v => some (.int v.toInt64)
  | .text s | .stext s => some (.text s)
  | .unknown _ => none

/-- `sqlite3_bind_*`: parameters are counted from 1. -/
def sqlite3Bind (params : List SqlValue) (i : ℕ) (v : SqlValue) : Option (List SqlValue) :=
  if 1 ≤ i ∧ i ≤ params.length then some (params.set (i - 1) v) else none

/-- The loop of `i_dbExecBindVariables` with the number of iterations left; `none` is an error, or
    an argument list that is too short. -/
def bindLoop : ℕ → ℕ → List BindArg → List SqlValue → Option (List SqlValue)
  | 0, _, _, params => some params
  | _ + 1, _, [], _ => none
  | n + 1, i, arg :: args, params => do
      let v ← arg.value
      let params ← sqlite3Bind params i v
      bindLoop n (i + 1) args params

/-- `i_dbExecBindVariables` for a statement with `count` parameters, all of them NULL at first. -/
def bindVariables (count : ℕ) (args : List BindArg) (bindCnt : ℕ) : Option (List SqlValue) :=
  bindLoop bindCnt 1 args (List.replicate count .null)

/-- The loop writes one parameter after the other. -/
theorem bindLoop_eq (args more : List BindArg) (vals bound rest : List SqlValue)
    (hvals : args.map BindArg.value = vals.map some) (hlen : args.length ≤ rest.length) :
    bindLoop args.length (bound.length + 1) (args ++ more) (bound ++ rest) =
      some (bound ++ vals ++ rest.drop args.length) := by
  induction args generalizing vals bound rest with
  | nil =>
    have hnil : vals = [] := by simpa using hvals.symm
    simp [bindLoop, hnil]
  | cons arg args ih =>
    obtain ⟨v, vals, rfl⟩ : ∃ v vs, vals = v :: vs := by
      cases vals with
      | nil => simp at hvals
      | cons v vs => exact ⟨v, vs, rfl⟩
    simp only [List.map_cons, List.cons.injEq] at hvals
    obtain ⟨x, rest, rfl⟩ : ∃ x r, rest = x :: r := by
      cases rest with
      | nil => simp at hlen
      | cons x r => exact ⟨x, r, rfl⟩
    -- the parameter bound now is the first one behind those that have been bound
    have hbind : sqlite3Bind (bound ++ x :: rest) (bound.length + 1) v =
        some ((bound ++ [v]) ++ rest) := by
      rw [sqlite3Bind, if_pos (by simp)]
      simp
    have hnext := ih vals (bound ++ [v]) rest hvals.2 (by simpa using hlen)
    rw [List.length_append, List.length_singleton] at hnext
    simp only [List.length_cons, List.cons_append, bindLoop, hvals.1, hbind, Option.bind_eq_bind,
      Option.bind_some, hnext, List.drop_succ_cons]
    simp

/-- **Binding.**  The first `bindCnt` parameters get the arguments' values, and those that follow
    stay NULL. -/
theorem bindVariables_eq {count bindCnt : ℕ} {args : List BindArg} {vals : List SqlValue}
    (hcnt : bindCnt ≤ args.length) (hcount : bindCnt ≤ count)
    (hvals : (args.take bindCnt).map BindArg.value = vals.map some) :
    bindVariables count args bindCnt =
      some (vals ++ List.replicate (count - bindCnt) .null) := by
  have hlen : (args.take bindCnt).length = bindCnt := by simp [hcnt]
  have hloop := bindLoop_eq (args.take bindCnt) (args.drop bindCnt) vals []
    (List.replicate count .null) hvals (by simp [hcnt, hcount])
  rw [hlen, List.take_append_drop] at hloop
  simpa [bindVariables] using hloop

/-! ### Executing -/

/-- How sqlite answers while a statement is executed: whether it can be prepared, whether the
    variables can be bound, and after how many rows `sqlite3_step` fails, if it does. -/
structure Answer where
  prepares : Bool
  binds : Bool
  failsAfter : Option ℕ
  deriving DecidableEq

/-- Nothing fails. -/
def Answer.ok : Answer := ⟨true, true, none⟩

/-- The rows of a result that `sqlite3_step` returns. -/
def Answer.delivered {ρ : Type} (ans : Answer) (rows : List ρ) : List ρ :=
  match ans.failsAfter with
  | none => rows
  | some k => rows.take k

/-- A result of `sqlite3_step`. -/
inductive StepResult where
  | row | done | error
  deriving DecidableEq

/-- What the loop of `i_dbExec` leaves: `param`, `rowCount`, the result of the last step, and what
    the calls of the callback have returned. -/
structure Executed (σ : Type) where
  param : σ
  rowCount : UInt32
  lastStep : StepResult
  callbacks : List Int32

/-- The callback has returned `rc` before the rest of the loop. -/
def Executed.calledBack {σ : Type} (r : Executed σ) (rc : Int32) : Executed σ :=
  { r with callbacks := rc :: r.callbacks }

section
variable {σ ρ : Type} (callback : σ → ρ → σ × Int32)

/-- The loop of `i_dbExec` over the rows that `sqlite3_step` returns before it is done or, if
    `fails`, returns an error; `rowCount` counts the successful steps. -/
def execLoop (fails : Bool) : List ρ → UInt32 → σ → Executed σ
  | [], rowCount, param =>
      if fails then ⟨param, rowCount, .error, []⟩ else ⟨param, rowCount + 1, .done, []⟩
  | row :: rows, rowCount, param =>
      let r := callback param row
      if r.2 ≠ 0 then ⟨r.1, rowCount + 1, .row, [r.2]⟩
      else (execLoop fails rows (rowCount + 1) r.1).calledBack r.2

/-- `i_dbExec`: what the callback has made of `param`, and the result.  `opened` is the state of
    the database, `bound` the result of `i_dbExecBindVariables`.  `sqlite3_finalize` returns the
    error of the last step, if there was one. -/
def dbExec (opened : Bool) (ans : Answer) (bound : Option (List SqlValue)) (rows : List ρ)
    (param : σ) : σ × KStatus :=
  if !opened then (param, .dbIncompatibleState)
  else if !ans.prepares then (param, .unsuccess)
  else if !ans.binds || bound.isNone then (param, .unsuccess)
  else
    let r := execLoop callback ans.failsAfter.isSome (ans.delivered rows) 0 param
    if r.rowCount = 0 || r.lastStep = .error then (r.param, .dbExecError) else (r.param, .success)

variable {callback}

/-- What the callback keeps for every row, the loop keeps. -/
theorem execLoop_keeps {P : σ → Prop} {rows : List ρ}
    (hstep : ∀ param, P param → ∀ row ∈ rows, P (callback param row).1) (fails : Bool)
    (rowCount : UInt32) {param : σ} (h : P param) :
    P (execLoop callback fails rows rowCount param).param := by
  induction rows generalizing rowCount param with
  | nil =>
    rw [execLoop]
    split <;> exact h
  | cons row rows ih =>
    have hrow : P (callback param row).1 := hstep param h row (by simp)
    rw [execLoop]
    split
    · exact hrow
    · exact ih (fun param hp row hr => hstep param hp row (by simp [hr])) _ hrow

/-- **Invariant.**  What the callback keeps for every row, the call keeps, whatever sqlite
    answers. -/
theorem dbExec_keeps {P : σ → Prop} {rows : List ρ}
    (hstep : ∀ param, P param → ∀ row ∈ rows, P (callback param row).1) (opened : Bool)
    (ans : Answer) (bound : Option (List SqlValue)) {param : σ} (h : P param) :
    P (dbExec callback opened ans bound rows param).1 := by
  unfold dbExec
  split
  · exact h
  · split
    · exact h
    · split
      · exact h
      · -- sqlite may deliver only the first rows
        have hdelivered : ∀ param, P param → ∀ row ∈ ans.delivered rows,
            P (callback param row).1 := by
          intro param hp row hr
          refine hstep param hp row ?_
          unfold Answer.delivered at hr
          split at hr
          · exact hr
          · exact List.mem_of_mem_take hr
        have hloop := execLoop_keeps hdelivered ans.failsAfter.isSome 0 h
        dsimp only
        split <;> exact hloop

/-- A callback that returns 0 sees every row. -/
theorem execLoop_eq (h0 : ∀ param row, (callback param row).2 = 0) (rows : List ρ)
    (rowCount : UInt32) (param : σ) :
    execLoop callback false rows rowCount param =
      ⟨rows.foldl (fun param row => (callback param row).1) param,
        rowCount + UInt32.ofNat (rows.length + 1), .done, List.replicate rows.length 0⟩ := by
  induction rows generalizing rowCount param with
  | nil => rfl
  | cons row rows ih =>
    rw [execLoop, h0, if_neg (not_not.mpr rfl), ih, List.foldl_cons, List.length_cons,
      UInt32.ofNat_add (rows.length + 1) 1, UInt32.add_assoc, UInt32.add_comm 1]
    rfl

/-- A callback that returns 0 leaves it to the last step to fail. -/
theorem lastStep_of_fails (h0 : ∀ param row, (callback param row).2 = 0) (rows : List ρ)
    (rowCount : UInt32) (param : σ) :
    (execLoop callback true rows rowCount param).lastStep = .error := by
  induction rows generalizing rowCount param with
  | nil => rfl
  | cons row rows ih =>
    rw [execLoop, h0, if_neg (not_not.mpr rfl)]
    exact ih _ _

/-- After a success the callback has seen every row, however many there are. -/
theorem dbExec_of_success (h0 : ∀ param row, (callback param row).2 = 0) {opened : Bool}
    {ans : Answer} {bound : Option (List SqlValue)} {rows : List ρ} {param : σ}
    (h : (dbExec callback opened ans bound rows param).2 = .success) :
    (dbExec callback opened ans bound rows param).1 =
      rows.foldl (fun param row => (callback param row).1) param := by
  obtain ⟨prepares, binds, failsAfter⟩ := ans
  cases opened <;> cases prepares <;> cases binds <;> cases bound <;> cases failsAfter <;>
    simp only [dbExec, Answer.delivered, execLoop_eq h0, lastStep_of_fails h0, decide_true,
      Bool.not_true, Bool.not_false,
      Bool.false_eq_true, Bool.or_false, Bool.or_true, if_true, if_false,
      Option.isNone_some, Option.isNone_none, Option.isSome_some, Option.isSome_none,
      reduceCtorEq] at h ⊢
  split <;> rfl

/-- If sqlite does not fail, the callback has seen every row, also when their number wraps
    around. -/
theorem dbExec_of_answer (h0 : ∀ param row, (callback param row).2 = 0)
    {bound : Option (List SqlValue)} (hbound : bound.isSome = true) (rows : List ρ) (param : σ) :
    (dbExec callback true .ok bound rows param).1 =
      rows.foldl (fun param row => (callback param row).1) param := by
  obtain ⟨params, rfl⟩ := Option.isSome_iff_exists.mp hbound
  simp only [dbExec, Answer.ok, Answer.delivered, execLoop_eq h0, Option.isSome_none,
    Option.isNone_some, Bool.not_true, Bool.or_false, Bool.false_eq_true, if_false]
  split <;> rfl

/-- **Success.**  A call succeeds exactly if sqlite does not fail and the variables are bound (and
    the number of rows does not wrap around), and then the callback has seen every row. -/
theorem dbExec_of_ok (h0 : ∀ param row, (callback param row).2 = 0) {rows : List ρ}
    (hrows : rows.length + 1 < 2 ^ 32) (opened : Bool) (ans : Answer)
    (bound : Option (List SqlValue)) (param : σ) :
    ((dbExec callback opened ans bound rows param).2 = .success ↔
      opened = true ∧ ans = .ok ∧ bound.isSome = true) ∧
    ((dbExec callback opened ans bound rows param).2 = .success →
      (dbExec callback opened ans bound rows param).1 =
        rows.foldl (fun param row => (callback param row).1) param) := by
  have hcount : (UInt32.ofNat rows.length + 1 = 0) = False := by
    have hadd : UInt32.ofNat rows.length + 1 = UInt32.ofNat (rows.length + 1) :=
      (UInt32.ofNat_add rows.length 1).symm
    rw [eq_iff_iff, iff_false, hadd, ← UInt32.toNat_inj, UInt32.toNat_ofNat',
      Nat.mod_eq_of_lt hrows]
    exact Nat.succ_ne_zero _
  obtain ⟨prepares, binds, failsAfter⟩ := ans
  cases opened <;> cases prepares <;> cases binds <;> cases failsAfter <;> cases bound <;>
    simp [dbExec, Answer.ok, Answer.delivered, execLoop_eq h0, lastStep_of_fails h0, hcount]

end

end Niuchacz.Database
