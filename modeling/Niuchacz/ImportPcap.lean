import Mathlib.Data.List.Forall2
import Niuchacz.CmdManager.Jobs
import Niuchacz.ExportFile
import Niuchacz.PacketAnalyze.Stored

namespace Niuchacz.ImportPcap

open CmdManager (Timeval Job Execution cmdmgrJobPrepare cmdmgrJobExec at_jobPrepare findExec)
open Database (Answer)
open Lib.Memory PacketAnalyze SvcKernel

/-!
# Import and export in the test mode (`import_pcap.c`, `main.c`)

In the test mode `main` executes one command at once, `IMPORT_PCAP` or `EXPORT_FILE`, through a job
that holds the name of a file.  The handler of the first one opens a capture file and calls
`cmdPacketAnalyzeExec` for one packet after the other.

* `importPcap`, `cmdImportPcapExec`, `exportHandler` — the handlers, with the files by their names.
* `testFileCommand` — what `testImportPcap` and `testExportFile` have in common.
* `testFileCommand_eq` — the handler gets the name, whatever is behind it in the job.
* `importPcap_eq` — the packets of a file are in the table, if nothing fails.
* `Session`, `sessionStep`, `importAll` — runs of the program that import a file, over one database;
  its file is kept between them (`dropOnClose` is off).
* `imported_files_exported` — all of them succeed, and the packets of all these files are in the
  file that is exported.

A run is modelled from `cmd_sync` on: the kernel has been initialised, the database is open and its
tables exist.
-/

/-! ### The handlers -/

/-- `sizeof(cmd_import_cfg_t)` and `sizeof(cmd_export_cfg_t)`. -/
def sizeofCfg : ℕ := 255

/-- `_file_name` of a `cfg`, as a C string; `none` if it has no end. -/
def fileName (pdata : List UInt8) : Option Text :=
  if 0 ∈ pdata then some (pdata.takeWhile (· ≠ 0)) else none

/-- The capture files: what `pcap_next` returns for the file of a name until it returns `NULL`, if
    the file can be opened, with what each call of `cmdPacketAnalyzeExec` finds. -/
abbrev Captures := Text → Option (List (Frame × Surroundings))

/-- `i_importPcap` with `cmdPacketAnalyzeExec`, whose results are not looked at. -/
def importPcap (libc : Libc) (captures : Captures) (s : State) (file_name : Text) :
    Option (State × Int32) :=
  match captures file_name with
  | none => some (s, -1)
  | some packets => (analyseAll libc s packets).map fun r => (r.1, 0)

/-- `cmdImportPcapExec`. -/
def cmdImportPcapExec (libc : Libc) (captures : Captures) (s : State) (pdata : List UInt8)
    (dataSize : UInt64) : Option (State × Int32) :=
  if dataSize ≠ UInt64.ofNat sizeofCfg then some (s, -1)
  else (fileName pdata).bind (importPcap libc captures s)

/-- `cmdExportFileExec` for a database that is open, with the files that have been written;
    `opens` says which of them can be. -/
def exportHandler (opens : Text → Bool) (ans : Answer) (packets : List PacketRow)
    (files : Text → Option Text) (pdata : List UInt8) (dataSize : UInt64) :
    Option ((Text → Option Text) × Int32) := do
  let name ← fileName pdata
  let r ← ExportFile.cmdExportFileExec dataSize.toNat (opens name) true ans packets
  match r.file with
  | none => return (files, r.ret)
  | some text => return (Function.update files name (some text), r.ret)

/-! ### The drivers -/

/-- What a driver finds: the bytes of `cfg` on the stack, `ts`, which nobody sets, the memory and
    the block that `malloc` returns, and the kernel with its command table. -/
structure Setting where
  cfg : List UInt8
  ts : Timeval
  mem : Mem
  malloc : Option UInt64
  env : CmdManager.Env

/-- `strcpy` into `cfg`; `none` if the name does not fit. -/
def strcpy (cfg : List UInt8) (file_name : Text) : Option (List UInt8) :=
  if file_name.length < cfg.length then some (file_name ++ 0 :: cfg.drop (file_name.length + 1))
  else none

/-- `testImportPcap` and `testExportFile`: a job of the command with the name of the file, executed
    at once by the handler that the table has for the command. -/
def testFileCommand {σ : Type} (cmd : Text)
    (handler : σ → List UInt8 → UInt64 → Option (σ × Int32)) (w : Setting) (s : σ)
    (file_name : Text) : Option (σ × KStatus) := do
  let cfg ← strcpy w.cfg file_name
  match cmdmgrJobPrepare w.mem w.malloc cmd cfg w.ts 0 with
  | (.success, mem, some pjob) =>
      let env := { w.env with
        handler := fun c => ((handler s c.data c.dataSize).map Prod.snd).getD 0 }
      let r ← cmdmgrJobExec (cmd.length + 1) env mem pjob .synchronous .none false fun _ => 0
      match r.execution.bind Execution.call with
      | none => some (s, r.status)
      | some c => (handler s c.data c.dataSize).map fun x => (x.1, r.status)
  | (status, _, _) => some (s, status)

def importPcapCmd : Text := "IMPORT_PCAP".toList.map fun c => UInt8.ofNat c.toNat

def exportFileCmd : Text := "EXPORT_FILE".toList.map fun c => UInt8.ofNat c.toNat

/-- `testImportPcap`. -/
def testImportPcap (libc : Libc) (captures : Captures) (w : Setting) (s : State)
    (file_name : Text) : Option (State × KStatus) :=
  testFileCommand importPcapCmd (cmdImportPcapExec libc captures) w s file_name

/-- `testExportFile`. -/
def testExportFile (opens : Text → Bool) (ans : Answer) (packets : List PacketRow) (w : Setting)
    (files : Text → Option Text) (file_name : Text) : Option ((Text → Option Text) × KStatus) :=
  testFileCommand exportFileCmd (exportHandler opens ans packets) w files file_name

/-! ### One command -/

/-- `cfg` has its size, there is memory for the job, and the running kernel knows the command. -/
structure Setting.Ready (w : Setting) (cmd : Text) : Prop where
  cfg : w.cfg.length = sizeofCfg
  malloc : w.malloc.isSome = true
  running : svcKernelIsRunning w.env.first w.env.second = true
  found : findExec w.env.ans w.env.table cmd ≠ 0

/-- A name that fits into `_file_name`. -/
structure IsFileName (name : Text) : Prop where
  noNul : 0 ∉ name
  length_lt : name.length < sizeofCfg

/-- The status that is made of a handler's result. -/
def statusOf (ret : Int32) : KStatus := if ret ≠ 0 then .unsuccess else .success

variable {name : Text}

/-- The file name is read up to its terminator, whatever is behind it in the job. -/
theorem fileName_append (h : 0 ∉ name) (rest : List UInt8) :
    fileName (name ++ 0 :: rest) = some name := by
  have htake : (name ++ 0 :: rest).takeWhile (· ≠ 0) = name := by
    rw [List.takeWhile_append_of_pos]
    · simp
    · intro c hc
      exact decide_eq_true fun he => h (he ▸ hc)
  rw [fileName, if_pos (by simp), htake]

/-- The call of the handler for a job. -/
def Setting.callOf (w : Setting) (job : Job) : CmdManager.ExecCall :=
  ⟨findExec w.env.ans w.env.table job.cmd, job.ts, job.data, UInt64.ofNat job.data.length⟩

/-- In a run that is ready, the job calls its handler with the data that were sent. -/
theorem Setting.Ready.run {w : Setting} {job : Job} (hw : w.Ready job.cmd)
    (handler : CmdManager.ExecCall → Int32) :
    job.run { w.env with handler := handler } =
      ⟨some job.cmd, some (w.callOf job), statusOf (handler (w.callOf job))⟩ := by
  unfold Job.run
  simp only [hw.running, Bool.not_true, Bool.false_eq_true, if_false]
  rw [if_neg hw.found]
  rfl

/-- **One command.**  The handler is called with a `cfg` that holds the name, and its result decides
    about the status. -/
theorem testFileCommand_eq {σ : Type} {cmd : Text} (hcmd : 0 ∉ cmd) (hlen : cmd.length < 2 ^ 32)
    (handler : σ → List UInt8 → UInt64 → Option (σ × Int32)) {w : Setting} (hw : w.Ready cmd)
    (hname : IsFileName name) (s : σ) :
    ∃ rest, testFileCommand cmd handler w s name =
      (handler s (name ++ 0 :: rest) (UInt64.ofNat sizeofCfg)).map
        fun x => (x.1, statusOf x.2) := by
  have hlt := hname.length_lt
  refine ⟨w.cfg.drop (name.length + 1), ?_⟩
  have hcopy : strcpy w.cfg name = some (name ++ 0 :: w.cfg.drop (name.length + 1)) := by
    rw [strcpy, if_pos (by rw [hw.cfg]; exact hlt)]
  have hcfg : (name ++ 0 :: w.cfg.drop (name.length + 1)).length = sizeofCfg := by
    simp only [List.length_append, List.length_cons, List.length_drop, hw.cfg]
    omega
  generalize name ++ 0 :: w.cfg.drop (name.length + 1) = cfg at hcopy hcfg ⊢
  obtain ⟨pjob, hpjob⟩ := Option.isSome_iff_exists.mp hw.malloc
  -- the job's block is executed as the job
  let job : Job := ⟨cmd, cfg, w.ts, 0, hcmd⟩
  have hsize : job.size < 2 ^ 64 := by
    show 48 + (cmd.length + 1) + cfg.length < _
    rw [hcfg, sizeofCfg]
    omega
  have hat := at_jobPrepare w.mem pjob hsize
  have hready : w.Ready job.cmd := hw
  simp only [testFileCommand, hcopy, hpjob, cmdmgrJobPrepare, cmdmgrJobExec, Option.bind_eq_bind,
    Option.bind_some]
  rw [hat.exec (Nat.lt_succ_self _), hready.run]
  simp only [Setting.callOf, Option.map_some, Option.bind_some, job, hcfg]
  cases handler s cfg (UInt64.ofNat sizeofCfg) with
  | none => rfl
  | some x => rfl

/-! ### Import -/

variable {libc : Libc} {db : Db} {n : ℕ}

/-- The database is consistent, its tables have at most `n` addresses, with positive identifiers up
    to `n`, and the program has inserted all packets. -/
structure Regular (n : ℕ) (db : Db) : Prop where
  consistent : db.Consistent
  eth : Numbered n db.eth
  ip : Numbered n db.ip
  packets : ∀ row ∈ db.packets, ExportFile.Inserted row

/-- The rows are of the kind that can be read back from a file. -/
theorem inserted_analyseAll {s s' : State} {xs : List (Frame × Surroundings)} {rets : List Int32}
    (h : analyseAll libc s xs = some (s', rets)) (hs : ∀ row ∈ s.packets, ExportFile.Inserted row) :
    ∀ row ∈ s'.packets, ExportFile.Inserted row := by
  induction xs generalizing s rets with
  | nil =>
    cases h
    exact hs
  | cons x xs ih =>
    simp only [analyseAll, Option.bind_eq_bind, Option.bind_eq_some_iff] at h
    obtain ⟨e, he, ⟨s'', rets'⟩, hrest, hpair⟩ := h
    cases hpair
    exact ih hrest (ExportFile.inserted_exec he ⟨x.1.bytes, x.1.caplen, rfl⟩ hs)

/-- The frames of a file, if nothing fails. -/
theorem importPcap_eq (hdb : Regular n db) {create : Creation} {s₀ : State}
    (hcreate : cmdPacketAnalyzeCreate libc create db = some (.ok s₀)) {captures : Captures}
    {packets : List (Frame × Surroundings)} (hpackets : captures name = some packets)
    (hworks : ∀ x ∈ packets, x.2.Works) (hwhole : ∀ x ∈ packets, x.1.Whole)
    (hn : n + 2 * packets.length < 2 ^ 31) :
    ∃ s rows, importPcap libc captures s₀ name = some (s, 0) ∧
      Regular (n + 2 * packets.length) s.db ∧ s.packets = db.packets ++ rows ∧
      List.Forall₂ Describes ((packets.map Prod.fst).filter (5 ≤ ·.ihl)) rows := by
  have hs := inv_create hcreate hdb.consistent
  obtain ⟨rfl, -⟩ := create_ok hcreate
  obtain ⟨s, hall, heth, hip⟩ := analyseAll_works libc hs hdb.eth hdb.ip hworks hn
  obtain ⟨s', rets, hall', hinv, -, rows, hrows, hdesc⟩ := recorded_analyseAll libc hs hwhole
  obtain ⟨rfl, rfl⟩ : s = s' ∧ packets.map (·.1.result) = rets := by
    rw [hall, Option.some.injEq, Prod.mk.injEq] at hall'
    exact hall'
  rw [filter_results] at hdesc
  have htidy : s.db.Tidy := ⟨hinv.eth.one, hinv.ip.one, hinv.packets⟩
  refine ⟨s, rows, ?_, ⟨?_, heth, hip, inserted_analyseAll hall hdb.packets⟩, hrows, hdesc⟩
  · simp only [importPcap, hpackets, hall, Option.map_some]
  · exact htidy.consistent (fun r hr => (heth.fits hn r hr).1) fun r hr => (hip.fits hn r hr).1

/-- `testImportPcap` imports the file of the name. -/
theorem testImportPcap_eq {w : Setting} (hw : w.Ready importPcapCmd) (hname : IsFileName name)
    (captures : Captures) (s : State) : testImportPcap libc captures w s name =
      (importPcap libc captures s name).map fun x => (x.1, statusOf x.2) := by
  obtain ⟨rest, htest⟩ := testFileCommand_eq (by decide) (by decide)
    (cmdImportPcapExec libc captures) hw hname s
  rw [testImportPcap, htest, cmdImportPcapExec, if_neg (not_not.mpr rfl),
    fileName_append hname.noNul, Option.bind_some]

/-- `testExportFile` writes the file of the name. -/
theorem testExportFile_eq {rows : List PacketRow} (hrows : ∀ row ∈ rows, ExportFile.Inserted row)
    {w : Setting} (hw : w.Ready exportFileCmd) (hname : IsFileName name) {opens : Text → Bool}
    (hopens : opens name = true) (files : Text → Option Text) :
    testExportFile opens .ok rows w files name =
      some (Function.update files name (some (ExportFile.fileText rows)), .success) := by
  obtain ⟨rest, htest⟩ := testFileCommand_eq (by decide) (by decide)
    (exportHandler opens .ok rows) hw hname files
  have hexec : exportHandler opens .ok rows files (name ++ 0 :: rest) (UInt64.ofNat sizeofCfg) =
      some (Function.update files name (some (ExportFile.fileText rows)), 0) := by
    have hfile : ExportFile.cmdExportFileExec (UInt64.ofNat sizeofCfg).toNat true true .ok rows =
        some ⟨0, some (ExportFile.fileText rows)⟩ := ExportFile.cmdExportFileExec_eq hrows
    simp only [exportHandler, fileName_append hname.noNul, hopens, hfile, Option.bind_eq_bind,
      Option.bind_some, Option.pure_def]
  rw [testExportFile, htest, hexec]
  rfl

/-- The rows are read back from the file. -/
theorem read_back {rows : List PacketRow} (hrows : ∀ row ∈ rows, ExportFile.Inserted row) :
    (Lib.Delimited.read ExportFile.newline ExportFile.bar
      (ExportFile.fileText rows)).tail.mapM ExportFile.readRow = some rows := by
  by_cases hne : rows = []
  · rw [hne]
    rfl
  · rw [ExportFile.read_fileText hrows hne]
    exact ExportFile.mapM_readRow hrows

/-! ### Sessions -/

/-- One run of the program that imports a file: how the caches are created, and what
    `testImportPcap` gets and finds. -/
structure Session where
  create : Creation
  setting : Setting
  captures : Captures
  name : Text

/-- The database after a session, and what `testImportPcap` has returned.  If the caches cannot be
    created, `main` stops at once. -/
def sessionStep (libc : Libc) (db : Db) (x : Session) : Option (Db × Option KStatus) :=
  match cmdPacketAnalyzeCreate libc x.create db with
  | none => none
  | some (.error _) => some (db, none)
  | some (.ok s) =>
      (testImportPcap libc x.captures x.setting s x.name).map fun r => (r.1.db, some r.2)

/-- One session after the other. -/
def importAll (libc : Libc) : Db → List Session → Option (Db × List (Option KStatus))
  | db, [] => some (db, [])
  | db, x :: xs => do
      let (db', status) ← sessionStep libc db x
      let (db'', statuses) ← importAll libc db' xs
      return (db'', status :: statuses)

/-- The packets of the file, with what is found while they are analysed. -/
def Session.packets (x : Session) : List (Frame × Surroundings) := (x.captures x.name).getD []

/-- The caches can be created, the file can be opened, nothing fails while its packets are
    analysed, and their headers end in them. -/
structure Session.Works (x : Session) : Prop where
  create : x.create.Works
  ready : x.setting.Ready importPcapCmd
  name : IsFileName x.name
  opened : (x.captures x.name).isSome = true
  works : ∀ y ∈ x.packets, y.2.Works
  whole : ∀ y ∈ x.packets, y.1.Whole

/-- The frames with a proper header length. -/
def Session.frames (x : Session) : List Frame := (x.packets.map Prod.fst).filter (5 ≤ ·.ihl)

/-- **Step.**  A session succeeds and adds the rows of its file. -/
theorem sessionStep_works (libc : Libc) {x : Session} (hdb : Regular n db) (hx : x.Works)
    (hn : n + 2 * x.packets.length < 2 ^ 31) :
    ∃ db' rows, sessionStep libc db x = some (db', some .success) ∧
      Regular (n + 2 * x.packets.length) db' ∧
      db'.packets = db.packets ++ rows ∧ List.Forall₂ Describes x.frames rows := by
  obtain ⟨s₀, hcreate⟩ := create_works libc hx.create hdb.eth hdb.ip (by omega)
  obtain ⟨packets, hpackets⟩ := Option.isSome_iff_exists.mp hx.opened
  have hsame : x.packets = packets := by rw [Session.packets, hpackets]; rfl
  obtain ⟨s, rows, himport, hreg, hrows, hdesc⟩ := importPcap_eq hdb hcreate hpackets
    (hsame ▸ hx.works) (hsame ▸ hx.whole) (hsame ▸ hn)
  refine ⟨s.db, rows, ?_, hsame ▸ hreg, hrows, ?_⟩
  · rw [sessionStep, hcreate]
    simp only [testImportPcap_eq hx.ready hx.name, himport, Option.map_some]
    rfl
  · rw [Session.frames, hsame]
    exact hdesc

/-- **Run.**  All sessions succeed, and the rows of their files are added in order. -/
theorem importAll_works (libc : Libc) (hdb : Regular n db) {xs : List Session}
    (hworks : ∀ x ∈ xs, x.Works) (hn : n + 2 * (xs.map (·.packets.length)).sum < 2 ^ 31) :
    ∃ db' rows, importAll libc db xs = some (db', xs.map fun _ => some .success) ∧
      Regular (n + 2 * (xs.map (·.packets.length)).sum) db' ∧
      db'.packets = db.packets ++ rows ∧ List.Forall₂ Describes (xs.flatMap (·.frames)) rows := by
  induction xs generalizing db n with
  | nil => exact ⟨db, [], rfl, hdb, (List.append_nil _).symm, List.Forall₂.nil⟩
  | cons x xs ih =>
    rw [List.map_cons, List.sum_cons] at hn
    obtain ⟨db₁, rows, hstep, hreg, hrows, hdesc⟩ :=
      sessionStep_works libc hdb (hworks x List.mem_cons_self) (by omega)
    obtain ⟨db', more, hrest, hreg', hmore, hdesc'⟩ :=
      ih hreg (fun y hy => hworks y (List.mem_cons_of_mem x hy)) (by omega)
    refine ⟨db', rows ++ more, ?_, ?_, by rw [hmore, hrows, List.append_assoc], ?_⟩
    · simp only [importAll, hstep, hrest, Option.bind_eq_bind, Option.bind_some, Option.pure_def,
        List.map_cons]
    · rw [List.map_cons, List.sum_cons, Nat.mul_add, ← Nat.add_assoc]
      exact hreg'
    · rw [List.flatMap_cons]
      exact List.rel_append hdesc hdesc'

/-- **Imported files are exported.**  The program imports any number of capture files, one in each
    run, into a regular database, and nothing fails: then every import succeeds, the database is
    consistent, and a run that exports the table writes a file from which the rows are read back:
    those that were there before, and then one for each packet with a proper header length, in the
    order of the files and of the packets in them, which describes the packet.  No other file is
    written. -/
theorem imported_files_exported (libc : Libc) {db₀ : Db} (hdb : Regular n db₀) {xs : List Session}
    (hworks : ∀ x ∈ xs, x.Works) (hn : n + 2 * (xs.map (·.packets.length)).sum < 2 ^ 31)
    {w : Setting} (hw : w.Ready exportFileCmd) (hname : IsFileName name) (opens : Text → Bool)
    (hopens : opens name = true) (files : Text → Option Text) :
    ∃ db files' text rows, importAll libc db₀ xs = some (db, xs.map fun _ => some .success) ∧
      db.Consistent ∧
      testExportFile opens .ok db.packets w files name = some (files', .success) ∧
      files' name = some text ∧ (∀ other, other ≠ name → files' other = files other) ∧
      (Lib.Delimited.read ExportFile.newline ExportFile.bar text).tail.mapM ExportFile.readRow =
        some (db₀.packets ++ rows) ∧
      List.Forall₂ Describes (xs.flatMap (·.frames)) rows := by
  obtain ⟨db, rows, hall, hreg, hrows, hdesc⟩ := importAll_works libc hdb hworks hn
  refine ⟨db, _, _, rows, hall, hreg.consistent,
    testExportFile_eq hreg.packets hw hname hopens files,
    Function.update_self .., fun other hother => Function.update_of_ne hother .., ?_, hdesc⟩
  rw [read_back hreg.packets, hrows]

/-- A running kernel that knows both commands. -/
def someSetting : Setting where
  cfg := List.replicate 255 0
  ts := ⟨0, 0⟩
  mem := fun _ => 0
  malloc := some 4096
  env := ⟨SVC_KERNEL_STATUS_RUNNING, 0, .ok,
    [⟨.text importPcapCmd, .null, .null, .null, .int 1, .null, .null⟩,
      ⟨.text exportFileCmd, .null, .null, .null, .int 2, .null, .null⟩], fun _ => 0⟩

/-- The file `a` has `twoFrames`. -/
def someSession : Session where
  create := .calm
  setting := someSetting
  captures := fun name => if name = [97] then some twoFrames else none
  name := [97]

/-- The sample setting is ready for every command that it has registered. -/
theorem someSetting_ready {cmd : Text}
    (h : findExec someSetting.env.ans someSetting.env.table cmd ≠ 0) : someSetting.Ready cmd :=
  ⟨List.length_replicate, rfl, by decide, h⟩

theorem calm_works : Surroundings.calm.Works :=
  ⟨⟨rfl, rfl, rfl, rfl, rfl⟩, ⟨rfl, rfl, rfl, rfl, rfl⟩, ⟨rfl, rfl, rfl, rfl, rfl⟩,
    ⟨rfl, rfl, rfl, rfl, rfl⟩, rfl⟩

theorem someSession_works : someSession.Works where
  create := ⟨rfl, rfl, rfl, rfl⟩
  ready := someSetting_ready (by decide)
  name := ⟨by decide, by decide⟩
  opened := rfl
  works := by
    intro y hy
    rcases List.mem_pair.mp (show y ∈ twoFrames from hy) with rfl | rfl
    · exact calm_works
    · exact calm_works
  whole := whole_twoFrames

theorem regular_someState : Regular 7 (someState 7).db where
  consistent := consistent_someState 7
  eth := numbered_ethTable le_rfl
  ip := numbered_ipRow (by decide)
  packets := fun row hrow => absurd hrow List.not_mem_nil

/-- The frames of the file `a` are imported twice, and two rows are exported to the file `b`. -/
theorem imported_files_exported_twice : ∃ db files' text row₁ row₂,
    importAll someLibc (someState 7).db [someSession, someSession] =
      some (db, [some .success, some .success]) ∧
    testExportFile (fun _ => true) .ok db.packets someSetting (fun _ => none) [98] =
      some (files', .success) ∧
    files' [98] = some text ∧
    (Lib.Delimited.read ExportFile.newline ExportFile.bar text).tail.mapM ExportFile.readRow =
      some [row₁, row₂] ∧
    Describes ⟨100, 1, frameWithOptions, 41⟩ row₁ ∧
    Describes ⟨100, 1, frameWithOptions, 41⟩ row₂ := by
  have hworks : ∀ x ∈ [someSession, someSession], x.Works := by
    intro x hx
    rcases List.mem_pair.mp hx with rfl | rfl
    · exact someSession_works
    · exact someSession_works
  obtain ⟨db, files', text, rows, hall, -, hexport, htext, -, hread, hdesc⟩ :=
    imported_files_exported someLibc regular_someState hworks (by decide)
      (someSetting_ready (by decide)) (show IsFileName [98] from ⟨by decide, by decide⟩)
      (fun _ => true) rfl fun _ => none
  -- one row for each of the two files
  cases (show List.Forall₂ Describes
    [⟨100, 1, frameWithOptions, 41⟩, ⟨100, 1, frameWithOptions, 41⟩] rows from hdesc) with
  | cons hrow₁ hrest =>
    cases hrest with
    | cons hrow₂ hrest =>
      cases hrest
      exact ⟨db, files', text, _, _, hall, hexport, htext, hread, hrow₁, hrow₂⟩

end Niuchacz.ImportPcap
