import Mathlib.Data.Int.Notation
import Mathlib.Data.Nat.Notation
import Mathlib.Logic.Function.Basic
import Niuchacz.Lib.Transaction

namespace Niuchacz.Oracle

open Lib.Transaction

/-!
# The warehouse: tables, queues and errors

The tables and the advanced queues that the packages `PKG_ACTIONS`, `PKG_ACTIONS_INTERNAL` and
`PKG_DOWNLOAD_FILES` work on, as the state of a session (`Lib.Transaction`), and the two calls of
`PKG_ACTIONS_INTERNAL`.

* `OraError` — an exception; handlers look at the number on top.
* `Db` — `download_files`, and for every queue its messages and all messages it has ever got.
* `pEnqueue`, `fDequeue` — a message is put into a queue or taken from it when the session commits;
  `EnqueueEnv.raised` — the exception of `pEnqueue`.

What may fail comes from outside: each call has an `Env` that says which of its steps raise an
exception.  A value that may be `NULL` is an `Option`.
-/

/-! ### Errors -/

/-- An exception: its number and text, and the errors kept below it. -/
structure OraError where
  code : ℤ
  text : String
  below : List (ℤ × String)
  deriving DecidableEq

/-- `raise_application_error(code, text)`. -/
def raiseApplicationError (code : ℤ) (text : String) : OraError := ⟨code, text, []⟩

/-- `raise_application_error(code, text, true)` while `e` is handled. -/
def raiseApplicationErrorKeep (code : ℤ) (text : String) (e : OraError) : OraError :=
  ⟨code, text, (e.code, e.text) :: e.below⟩

/-- `dbms_utility.format_error_stack`. -/
def formatErrorStack (e : OraError) : String :=
  "\n".intercalate (((e.code, e.text) :: e.below).map fun p => "ORA" ++ toString p.1 ++ ": " ++ p.2)

/-- `no_data_found`. -/
def noDataFound : OraError := ⟨100, "no data found", []⟩

/-- `too_many_rows`. -/
def tooManyRows : OraError := ⟨-1422, "exact fetch returns more than requested number of rows", []⟩

/-- The number of `e_dbmsaq_timeout`. -/
def dbmsaqTimeout : ℤ := -25228

/-- The number of `e_dbmsaq_end_of_group`. -/
def dbmsaqEndOfGroup : ℤ := -25235

/-! ### Actions and tables -/

/-- `o_download_files_action`. -/
structure DownloadFilesAction where
  downloadFileDefId : ℕ
  url : Option String
  hashMd5 : Option (List UInt8)
  deriving DecidableEq

/-- An object of a type under `o_import_files_action`. -/
structure ImportFilesAction where
  owner : String
  typename : String
  url : Option String
  hashMd5 : Option (List UInt8)
  deriving DecidableEq

/-- `o_action`. -/
inductive Action where
  | downloadFiles (a : DownloadFilesAction)
  | importFiles (a : ImportFilesAction)
  deriving DecidableEq

/-- A message in a queue. -/
structure Message where
  action : Action
  recipient : String
  deriving DecidableEq

/-- `Q_CORE_ACTIONS`, `Q_DOWNLOAD_FILES` and `Q_IMPORT_FILES`. -/
inductive QueueName where
  | coreActions
  | downloadFiles
  | importFiles
  deriving DecidableEq

/-- A row of `download_files`. -/
structure FileRow where
  startTime : ℤ
  stopTime : ℤ
  url : Option String
  content : List UInt8
  deriving DecidableEq

/-- What is stored in `next_download_options`, as far as it is looked at. -/
structure DownloadOptions where
  skipOldFiles : Option ℤ
  compression : Option String
  deriving DecidableEq

/-- A text that is a JSON object, or not. -/
inductive OptionsText where
  | invalid
  | object (options : DownloadOptions)
  deriving DecidableEq

/-- A row of `download_files_def`; dates are in seconds, intervals in microseconds. -/
structure DownloadFilesDef where
  downloadFileDefId : ℕ
  url : String
  nextDownload : Option ℤ
  nextDownloadOffset : Option ℤ
  nextDownloadOptions : Option OptionsText
  importActionOwner : String
  importActionTypename : String
  activeflag : Option String
  deriving DecidableEq

/-- `json_object_t(nvl(next_download_options, '{}'))`. -/
def jsonObject : Option OptionsText → Except OraError DownloadOptions
  | none => .ok ⟨none, none⟩
  | some .invalid => .error ⟨-40441, "JSON syntax error", []⟩
  | some (.object options) => .ok options

/-- The tables and queues that a session works on; `enqueued` has every message that has ever been
    put into a queue. -/
structure Db where
  downloadFiles : List FileRow
  queue : QueueName → List Message
  enqueued : QueueName → List Message

/-- Programs of a session. -/
abbrev Plsql := Txn OraError Db

/-- `select … into`. -/
def selectInto {α : Type} : List α → Plsql α
  | [] => throw noDataFound
  | [row] => pure row
  | _ => throw tooManyRows

/-- A `select … into` changes nothing. -/
theorem ensures_selectInto {α : Type} {P : Db → Prop} (rows : List α) :
    Ensures P (selectInto rows) fun _ => P := by
  match rows with
  | [] => exact Ensures.throw
  | [row] => exact Ensures.pure fun _ h => h
  | _ :: _ :: _ => exact Ensures.throw

/-- `url# = self.url#`, which is not true for `NULL`. -/
def FileRow.hasUrl (url : Option String) (row : FileRow) : Bool := url.isSome && row.url = url

/-! ### Queues -/

/-- A message is put at the end of a queue. -/
def Db.enqueue (db : Db) (queue : QueueName) (m : Message) : Db :=
  { db with
    queue := Function.update db.queue queue (db.queue queue ++ [m])
    enqueued := Function.update db.enqueued queue (db.enqueued queue ++ [m]) }

/-- The queue has got the message. -/
theorem enqueued_enqueue (db : Db) (queue : QueueName) (m : Message) :
    (db.enqueue queue m).enqueued queue = db.enqueued queue ++ [m] := Function.update_self ..

/-- No other queue has got it. -/
theorem enqueued_enqueue_of_ne (db : Db) {queue q : QueueName} (m : Message) (h : q ≠ queue) :
    (db.enqueue queue m).enqueued q = db.enqueued q := Function.update_of_ne h ..

/-- Which steps of `p_enqueue` fail: the heartbeat, the conversion to XML, `dbms_aq.enqueue`. -/
structure EnqueueEnv where
  heartbeat : Option OraError
  toXml : Option OraError
  enqueue : Option OraError

/-- `pkg_actions_internal.p_enqueue`. -/
def pEnqueue (env : EnqueueEnv) (queue : QueueName) (recipient : String) (autocommit : Bool)
    (action : Action) : Plsql Unit := do
  call env.heartbeat
  call env.toXml
  call env.enqueue
  work fun db => db.enqueue queue ⟨action, recipient⟩
  if autocommit then commit

/-- The exception that `p_enqueue` raises: that of the first step that fails. -/
def EnqueueEnv.raised (env : EnqueueEnv) : Option OraError :=
  env.heartbeat.or (env.toXml.or env.enqueue)

/-- `p_enqueue` raises it, or puts the message into the queue. -/
theorem pEnqueue_eq (env : EnqueueEnv) (queue : QueueName) (recipient : String)
    (autocommit : Bool) (action : Action) :
    pEnqueue env queue recipient autocommit action = (do
      call env.raised
      work fun db => db.enqueue queue ⟨action, recipient⟩
      if autocommit then commit) := by
  obtain ⟨heartbeat, toXml, enqueue⟩ := env
  cases heartbeat <;> cases toXml <;> cases enqueue <;> rfl

/-- The first message for a consumer, and the others. -/
def takeMessage (consumer : String) : List Message → Option (Message × List Message)
  | [] => none
  | m :: ms =>
      if m.recipient = consumer then some (m, ms)
      else (takeMessage consumer ms).map fun (m', ms') => (m', m :: ms')

/-- What `f_dequeue` meets: the heartbeat, the exceptions that the calls of `dbms_aq.dequeue` raise
    before one of them looks at the messages, and the conversion to an object. -/
structure DequeueEnv where
  heartbeat : Option OraError
  dequeue : List OraError
  toObject : Option OraError

/-- The loop of `f_dequeue`. -/
def dequeueLoop (queue : QueueName) (consumer : String) : List OraError → Plsql Message
  | e :: errors => if e.code = dbmsaqEndOfGroup then dequeueLoop queue consumer errors else throw e
  | [] => do
      match takeMessage consumer ((← view).queue queue) with
      | none => throw ⟨dbmsaqTimeout, "timeout or end-of-fetch during message dequeue", []⟩
      | some (m, rest) =>
          work fun db => { db with queue := Function.update db.queue queue rest }
          return m

/-- `pkg_actions_internal.f_dequeue`, for the names of queues that do not end in `_E`. -/
def fDequeue (env : DequeueEnv) (queue : QueueName) (consumer : String) (autocommit : Bool) :
    Plsql (Option Action) := do
  call env.heartbeat
  let message ← dequeueLoop queue consumer env.dequeue
  call env.toObject
  if autocommit then commit
  return some message.action

end Niuchacz.Oracle
