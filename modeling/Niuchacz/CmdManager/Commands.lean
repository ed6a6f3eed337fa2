import Niuchacz.Database.Exec
import Niuchacz.Lib.Transition

namespace Niuchacz.CmdManager

open Database SvcKernel Lib.Transition

/-!
# The command table (`svc_kernel/execute_unit/cmd_manager.c`)

Commands are rows of the table `cmdmgr_cmdlist`; their handlers are stored as integers.

* `cmdmgrAddCommand` — creates a command and inserts its row.
* `findPtr` — `i_cmdmgrFindPtr`; `findExec` and `findDestroy` read one column.
* `cmdmgrStop` — calls the destroy handler that the table has for each command.
* `commands_registered` — every command that has been added is found; but no destroy handler is
  ever called by `cmdmgrStop`, since the insert statement has seven parameters and six are bound.

A handler is its address, and the destroy handlers that a function calls are part of its result.
Handlers' own effects and logging are left out.
-/

/-- A C string. -/
abbrev Text := List UInt8

/-- A row of `cmdmgr_cmdlist`. -/
structure CmdRow where
  code : SqlValue
  description : SqlValue
  version : SqlValue
  pjobdef : SqlValue
  pexec : SqlValue
  pcreate : SqlValue
  pdestroy : SqlValue
  deriving DecidableEq

/-- A call of `cmdmgrAddCommand`: its arguments, what `pcreate` returns, and how sqlite answers. -/
structure AddCall where
  cmd : Text
  description : Text
  pexec : UInt64
  pcreate : UInt64
  pdestroy : UInt64
  version : Int32
  created : Int32
  ans : Answer

/-- The number of parameters of `cgInsertCommand`. -/
def insertParameters : ℕ := 7

/-- The row of the parameters of `cgInsertCommand`. -/
def rowOf : List SqlValue → Option CmdRow
  | [code, description, version, pjobdef, pexec, pcreate, pdestroy] =>
      some ⟨code, description, version, pjobdef, pexec, pcreate, pdestroy⟩
  | _ => none

/-- The arguments that `cmdmgrAddCommand` gives to `dbExec`. -/
def AddCall.args (c : AddCall) : List BindArg :=
  [.text c.cmd, .text c.description, .int c.version, .int64 0, .int64 c.pexec.toInt64,
    .int64 c.pcreate.toInt64, .int64 c.pdestroy.toInt64]

/-- What `cmdmgrAddCommand` does: the table after the call, the result, and the destroy handlers
    it has called. -/
structure Added where
  table : List CmdRow
  status : KStatus
  destroyed : List UInt64
  deriving DecidableEq

/-- The call of `dbExec` with `cgInsertCommand`: the row is there exactly if it succeeds. -/
def insertCommand (table : List CmdRow) (c : AddCall) : List CmdRow × KStatus :=
  let bound := bindVariables insertParameters c.args 6
  let status := (dbExec (fun (u : Unit) (_ : Unit) => (u, 0)) true c.ans bound [] ()).2
  if status = .success then (table ++ (bound.bind rowOf).toList, status) else (table, status)

/-- `cmdmgrAddCommand`. -/
def cmdmgrAddCommand (table : List CmdRow) (c : AddCall) : Added :=
  if c.created ≠ 0 then ⟨table, .unsuccess, [c.pdestroy]⟩
  else
    let r := insertCommand table c
    if r.2 ≠ .success then ⟨r.1, r.2, [c.pdestroy]⟩ else ⟨r.1, .success, []⟩

/-- `i_cmdmgrFindPtr_GetVal`: the last row's value stays. -/
def getVal (_ : UInt64) (v : SqlValue) : UInt64 × Int32 := (v.columnInt64.toUInt64, 0)

/-- `i_cmdmgrFindPtr` for a column of the table. -/
def findPtr (ans : Answer) (table : List CmdRow) (column_name : CmdRow → SqlValue) (cmd : Text) :
    UInt64 :=
  let rows := (table.filter (·.code = .text cmd)).map column_name
  let r := dbExec getVal true ans (bindVariables 1 [.text cmd] 1) rows 0
  if r.2 ≠ .success then 0 else r.1

/-- `i_cmdmgrFindExec`. -/
def findExec (ans : Answer) (table : List CmdRow) (cmd : Text) : UInt64 :=
  findPtr ans table CmdRow.pexec cmd

/-- `i_cmdmgrFindDestroy`. -/
def findDestroy (ans : Answer) (table : List CmdRow) (cmd : Text) : UInt64 :=
  findPtr ans table CmdRow.pdestroy cmd

/-- `sqlite3_column_text`. -/
def columnText : SqlValue → Text
  | .text s => s
  | .null | .int _ => []

/-- `i_cmdmgrDestroySingleCommand`, with the list of the handlers called so far, each with the
    command it was called for.  The answers of sqlite to the lookup depend on the command. -/
def destroySingleCommand (lookup : Text → Answer) (table : List CmdRow)
    (called : List (Text × UInt64)) (code : SqlValue) : List (Text × UInt64) × Int32 :=
  let cmd := columnText code
  let pdestroy := findDestroy (lookup cmd) table cmd
  if pdestroy = 0 then (called, 0) else (called ++ [(cmd, pdestroy)], 0)

/-- `cmdmgrStop` after the two queues have been destroyed: the destroy handlers it calls. -/
def cmdmgrStop (ans : Answer) (lookup : Text → Answer) (table : List CmdRow) :
    List (Text × UInt64) :=
  (dbExec (destroySingleCommand lookup table) true ans (some []) (table.map CmdRow.code) []).1

/-! ### What the table holds -/

/-- The row that `cmdmgrAddCommand` inserts: there is no destroy handler in it. -/
def AddCall.row (c : AddCall) : CmdRow :=
  ⟨.text c.cmd, .text c.description, .int c.version.toInt64, .int 0, .int c.pexec.toInt64,
    .int c.pcreate.toInt64, .null⟩

/-- The six variables are bound to the fields of the row. -/
theorem bound_insert (c : AddCall) :
    (bindVariables insertParameters c.args 6).bind rowOf = some c.row := by
  have hvals : (c.args.take 6).map BindArg.value =
      [SqlValue.text c.cmd, .text c.description, .int c.version.toInt64, .int 0,
        .int c.pexec.toInt64, .int c.pcreate.toInt64].map some := rfl
  have hbind : bindVariables insertParameters c.args 6 = _ :=
    bindVariables_eq (by simp [AddCall.args]) (by decide) hvals
  rw [hbind]
  rfl

/-- **Adding a command.**  It succeeds exactly if `pcreate` and sqlite do; then the row is appended
    and no handler is called, and otherwise the table stays and the destroy handler is called. -/
theorem cmdmgrAddCommand_cases (table : List CmdRow) (c : AddCall) :
    ((cmdmgrAddCommand table c).status = .success ∧
      cmdmgrAddCommand table c = ⟨table ++ [c.row], .success, []⟩) ∨
    ((cmdmgrAddCommand table c).status ≠ .success ∧
      (cmdmgrAddCommand table c).table = table ∧
      (cmdmgrAddCommand table c).destroyed = [c.pdestroy]) := by
  unfold cmdmgrAddCommand
  by_cases hc : c.created ≠ 0
  · rw [if_pos hc]
    exact Or.inr ⟨by rintro ⟨⟩, rfl, rfl⟩
  · rw [if_neg hc]
    unfold insertCommand
    simp only [bound_insert, Option.toList_some]
    split
    · rename_i hs
      simp [hs]
    · rename_i hs
      simp [hs]

theorem code_row (c : AddCall) : c.row.code = .text c.cmd := rfl

variable {table : List CmdRow} {h : List (List CmdRow × AddCall)}

/-- One call as a step of a run. -/
def addStep (table : List CmdRow) (c : AddCall) : Option (List CmdRow) :=
  some (cmdmgrAddCommand table c).table

/-- The calls of a history that have succeeded. -/
def succeeded (h : List (List CmdRow × AddCall)) : List AddCall :=
  (h.filter fun x => (cmdmgrAddCommand x.1 x.2).status = .success).map (·.2)

/-- The calls that have succeeded so far. -/
theorem mem_succeeded {c : AddCall} : c ∈ succeeded h ↔
    ∃ x ∈ h, (cmdmgrAddCommand x.1 x.2).status = .success ∧ x.2 = c := by
  simp [succeeded, and_assoc]

/-- **Run.**  The table holds one row for each call that has succeeded. -/
theorem table_run (hr : Run addStep [] h table) : table = (succeeded h).map AddCall.row := by
  induction hr with
  | nil => rfl
  | @snoc h table table' c hr hs ih =>
    have htable : table' = (cmdmgrAddCommand table c).table := (Option.some.inj hs).symm
    have hsplit : succeeded (h ++ [(table, c)]) = succeeded h ++ succeeded [(table, c)] := by
      simp [succeeded]
    rw [hsplit, List.map_append, ← ih, htable]
    rcases cmdmgrAddCommand_cases table c with ⟨hst, heq⟩ | ⟨hst, heq, -⟩
    · simp [heq, succeeded]
    · simp [heq, succeeded, hst]

/-! ### Looking up -/

/-- A lookup in which sqlite does not fail gives the value of the only row with the name. -/
theorem findPtr_eq (column : CmdRow → SqlValue) (cmd : Text) (row : CmdRow)
    (hrow : table.filter (·.code = .text cmd) = [row]) :
    findPtr .ok table column cmd = (column row).columnInt64.toUInt64 := by
  have h0 : ∀ ptr v, (getVal ptr v).2 = 0 := fun _ _ => rfl
  have hrows : [column row].length + 1 < 2 ^ 32 := by simp
  have hok := dbExec_of_ok h0 hrows true .ok (bindVariables 1 [.text cmd] 1) 0
  have hsucc := hok.1.mpr ⟨rfl, rfl, rfl⟩
  unfold findPtr
  simp only [hrow, List.map_cons, List.map_nil, hsucc, hok.2 hsucc]
  rfl

/-- The rows of commands with different names are told apart by the name. -/
theorem filter_rows {cs : List AddCall} (hd : (cs.map AddCall.cmd).Nodup) {c : AddCall}
    (hc : c ∈ cs) : (cs.map AddCall.row).filter (·.code = .text c.cmd) = [c.row] := by
  induction cs with
  | nil => exact absurd hc (by simp)
  | cons d cs ih =>
    simp only [List.map_cons, List.nodup_cons, List.mem_map, not_exists, not_and] at hd
    rcases List.mem_cons.mp hc with rfl | hc
    · have hrest : (cs.map AddCall.row).filter (·.code = .text c.cmd) = [] := by
        rw [List.filter_eq_nil_iff]
        intro row hrow
        obtain ⟨d, hd', rfl⟩ := List.mem_map.mp hrow
        simpa [code_row] using hd.1 d hd'
      rw [List.map_cons, List.filter_cons_of_pos (by simp [code_row]), hrest]
    · have hne : ¬ d.cmd = c.cmd := fun he => hd.1 c hc he.symm
      rw [List.map_cons, List.filter_cons_of_neg (by simpa [code_row] using hne), ih hd.2 hc]

/-- No lookup finds a destroy handler, whatever sqlite answers. -/
theorem findDestroy_eq_zero (ans : Answer) (cs : List AddCall) (cmd : Text) :
    findDestroy ans (cs.map AddCall.row) cmd = 0 := by
  have hzero : (dbExec getVal true ans (bindVariables 1 [.text cmd] 1)
      (((cs.map AddCall.row).filter (·.code = .text cmd)).map CmdRow.pdestroy) 0).1 = 0 := by
    refine dbExec_keeps (P := fun ptr => ptr = 0) ?_ _ _ _ rfl
    intro ptr _ v hv
    -- the column is NULL in every row
    obtain ⟨row, hrow, rfl⟩ := List.mem_map.mp hv
    obtain ⟨c, -, rfl⟩ := List.mem_map.mp (List.mem_filter.mp hrow).1
    rfl
  unfold findDestroy findPtr
  dsimp only
  split
  · rfl
  · exact hzero

/-- `cmdmgrStop` calls no destroy handler, whatever sqlite answers. -/
theorem cmdmgrStop_eq_nil (ans : Answer) (lookup : Text → Answer) (cs : List AddCall) :
    cmdmgrStop ans lookup (cs.map AddCall.row) = [] := by
  refine dbExec_keeps (P := fun called => called = []) ?_ _ _ _ rfl
  intro called hcalled code _
  rw [destroySingleCommand, findDestroy_eq_zero, if_pos rfl]
  exact hcalled

/-! ### Runs -/

/-- Every handler is called as it should be: `cmdmgrStop` calls the destroy handler of a command
    that was added once, and that of a command that was refused has been called once by
    `cmdmgrAddCommand` and is not called again. -/
def TornDown (h : List (List CmdRow × AddCall)) (table : List CmdRow) : Prop :=
  ∀ x ∈ h,
    ((cmdmgrAddCommand x.1 x.2).status = .success →
      ((cmdmgrStop .ok (fun _ => .ok) table).filter (·.1 = x.2.cmd)) = [(x.2.cmd, x.2.pdestroy)]) ∧
    ((cmdmgrAddCommand x.1 x.2).status ≠ .success →
      (cmdmgrAddCommand x.1 x.2).destroyed = [x.2.pdestroy] ∧
      ((cmdmgrStop .ok (fun _ => .ok) table).filter (·.1 = x.2.cmd)) = [])

/-- **Registered commands.**  After any sequence of calls of `cmdmgrAddCommand` with different
    names, `i_cmdmgrFindExec` finds the handler of every command that was added, and the destroy
    handler of every command that was refused has been called once, by the call that refused it.
    But the commands are torn down as they should be only if none was added. -/
theorem commands_registered (hr : Run addStep [] h table) (hd : (h.map (·.2.cmd)).Nodup) :
    (∀ x ∈ h, (cmdmgrAddCommand x.1 x.2).status = .success →
      findExec .ok table x.2.cmd = x.2.pexec) ∧
    (∀ x ∈ h, (cmdmgrAddCommand x.1 x.2).status ≠ .success →
      (cmdmgrAddCommand x.1 x.2).destroyed = [x.2.pdestroy]) ∧
    (∀ ans lookup, cmdmgrStop ans lookup table = []) ∧
    (TornDown h table ↔ ∀ x ∈ h, (cmdmgrAddCommand x.1 x.2).status ≠ .success) := by
  have htable := table_run hr
  have hstop : ∀ ans lookup, cmdmgrStop ans lookup table = [] := by
    intro ans lookup
    rw [htable]
    exact cmdmgrStop_eq_nil ans lookup _
  have hrefused : ∀ x ∈ h, (cmdmgrAddCommand x.1 x.2).status ≠ .success →
      (cmdmgrAddCommand x.1 x.2).destroyed = [x.2.pdestroy] := by
    intro x _ hne
    rcases cmdmgrAddCommand_cases x.1 x.2 with ⟨hst, -⟩ | ⟨-, -, hdes⟩
    · exact absurd hst hne
    · exact hdes
  refine ⟨?_, hrefused, hstop, ?_⟩
  · intro x hx hst
    have hmem : x.2 ∈ succeeded h := mem_succeeded.mpr ⟨x, hx, hst, rfl⟩
    have hnodup : ((succeeded h).map AddCall.cmd).Nodup := by
      refine List.Nodup.sublist ?_ hd
      rw [succeeded, List.map_map]
      exact List.filter_sublist.map _
    -- the names differ, so the query has exactly one row
    rw [findExec, htable, findPtr_eq _ _ _ (filter_rows hnodup hmem)]
    -- an address goes through a signed column and back
    show x.2.pexec.toInt64.toUInt64 = x.2.pexec
    simp
  · unfold TornDown
    simp only [hstop, List.filter_nil]
    constructor
    · intro hall x hx hst
      exact absurd ((hall x hx).1 hst) (by simp)
    · intro hall x hx
      exact ⟨fun hst => absurd hst (hall x hx), fun hst => ⟨hrefused x hx hst, trivial⟩⟩

/-- A command that is refused by its `pcreate`. -/
def refusedCall : AddCall := ⟨[65], [], 4000, 4001, 4002, 1, -1, .ok⟩

/-- A command that is added. -/
def addedCall : AddCall := ⟨[66], [], 4096, 4097, 4098, 1, 0, .ok⟩

/-- Two commands are registered, and the second one is found. -/
theorem commands_registered_two :
    ∃ h table, Run addStep [] h table ∧ h.length = 2 ∧ findExec .ok table [66] = 4096 := by
  have hrefused : addStep [] refusedCall = some [] := rfl
  have hadded : addStep [] addedCall = some [addedCall.row] := rfl
  have hr := (Run.single hrefused).snoc hadded
  refine ⟨_, _, hr, rfl, ?_⟩
  refine (commands_registered hr (by decide)).1 ([], addedCall) (by simp) ?_
  rcases cmdmgrAddCommand_cases [] addedCall with ⟨hst, -⟩ | ⟨-, htable, -⟩
  · exact hst
  · exact absurd htable (by decide)

/-- A command is added, and `cmdmgrStop` does not call its destroy handler. -/
theorem pdestroy_never_called :
    ∃ h table, Run addStep [] h table ∧
      (∃ x ∈ h, (cmdmgrAddCommand x.1 x.2).status = .success ∧ x.2.pdestroy = 4098) ∧
      table.length = 1 ∧ cmdmgrStop .ok (fun _ => .ok) table = [] ∧ ¬ TornDown h table := by
  have hadded : (cmdmgrAddCommand [] addedCall).status = .success := by decide
  have hstep : addStep [] addedCall = some [addedCall.row] := rfl
  have hstop : cmdmgrStop .ok (fun _ => .ok) [addedCall.row] = [] := by decide
  refine ⟨_, _, Run.single hstep, ⟨_, List.mem_singleton.mpr rfl, hadded, rfl⟩, rfl, hstop, ?_⟩
  intro htorn
  have hcalled := (htorn ([], addedCall) (List.mem_singleton.mpr rfl)).1 hadded
  rw [hstop] at hcalled
  exact absurd hcalled (by simp)

end Niuchacz.CmdManager
