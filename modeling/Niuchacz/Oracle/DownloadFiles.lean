import Mathlib.Data.List.Basic
import Mathlib.Order.Basic
import Niuchacz.Oracle.Model

namespace Niuchacz.Oracle

open Lib.Transaction

/-!
# Downloads (`TYPES/O_DOWNLOAD_FILES_ACTION.sql`)

`o_download_files_action.p_exec` downloads a URL, stores its content in `download_files` and
enqueues an action that imports it.

* `fDownload`, `tryAgain` — one attempt, and the attempts with a `goto` after a timeout.
* `pEnqueueImportaction`, `downloadExec` — the procedure.
* `Hands` — a new row and an import action for its URL come together; `ensures_downloadExec` — this
  is all that `p_exec` does if it returns.
-/

/-! ### One attempt -/

/-- A response to a request. -/
structure Response where
  httpVersion : String
  statusCode : ℤ
  reasonPhrase : String

/-- What one attempt meets: `begin_request`, `get_response`, the pieces that `read_raw` returns and
    the exception that ends them (`none` for `end_of_body`), `end_response` there and in the
    exception handler, and `sleep` after a timeout. -/
structure Attempt where
  beginRequest : Option OraError
  getResponse : Except OraError Response
  body : List (List UInt8)
  readRaw : Option OraError
  endResponse : Option OraError
  endAfterError : Option OraError
  startTime : ℤ
  stopTime : ℤ
  sleep : Option OraError

/-- A call that may fail, outside the database. -/
def raised : Option OraError → Except OraError Unit
  | none => .ok ()
  | some e => .error e

/-- `utl_http.http_ok`. -/
def httpOk : ℤ := 200

/-- `f_download`. -/
def fDownload (a : Attempt) : Except OraError (List UInt8) := do
  raised a.beginRequest
  tryCatch
    (do
      let response ← a.getResponse
      if response.statusCode ≠ httpOk then
        raised a.endResponse
        throw (raiseApplicationError (-20000) ("HTTP_VERSION=" ++ response.httpVersion ++ " " ++
          "STATUS_CODE=" ++ toString response.statusCode ++ " " ++
          "REASON_PHRASE" ++ response.reasonPhrase))
      match a.readRaw with
      | none => raised a.endResponse
      | some e => throw e
      return a.body.flatten)
    fun e => do
      raised a.endAfterError
      throw (raiseApplicationErrorKeep (-20000) (formatErrorStack e) e)

/-- The number of `utl_http.transfer_timeout`. -/
def transferTimeout : ℤ := -29276

/-- The block `try_again`, with the attempt `l_current`. -/
def tryAgain (attempts : ℤ → Attempt) (maxRetries : Option ℤ) (current : ℤ) :
    Except OraError (ℤ × ℤ × List UInt8) :=
  let a := attempts current
  match fDownload a with
  | .ok blob => .ok (a.startTime, a.stopTime, blob)
  | .error e =>
      if e.code = transferTimeout then
        match maxRetries with
        | none => .error e
        | some retries =>
            if current < retries then
              match a.sleep with
              | none => tryAgain attempts (some retries) (current + 1)
              | some e' => .error e'
            else .error e
      else .error e
termination_by (maxRetries.getD 0 - current).toNat
decreasing_by
  simp_wf
  omega

/-! ### The procedure -/

/-- `utl_raw.compare`: 0, or the first place at which the values differ; the shorter one is padded
    with zeros. -/
def utlRawCompare (r₁ r₂ : List UInt8) : ℕ :=
  match (List.range (max r₁.length r₂.length)).find? fun i => r₁.getD i 0 ≠ r₂.getD i 0 with
  | none => 0
  | some i => i + 1

/-- `rawtohex`. -/
def rawToHex (r : List UInt8) : String :=
  String.ofList (r.flatMap fun b => [(Nat.digitChar (b.toNat / 16)).toUpper,
    (Nat.digitChar (b.toNat % 16)).toUpper])

/-- What a run of `p_exec` meets: the rows of `download_files_def` at its two queries, the two
    properties, the attempts, `dbms_crypto.hash`, `lz_uncompress`, the insert, the dynamic block
    and the enqueue in it. -/
structure DownloadEnv where
  defs : List DownloadFilesDef
  defsLater : List DownloadFilesDef
  downloadRetries : Except OraError (Option ℤ)
  downloadRetryWait : Option OraError
  attempts : ℤ → Attempt
  hash : List UInt8 → Except OraError (List UInt8)
  lzUncompress : List UInt8 → Except OraError (List UInt8)
  insert : Option OraError
  importBlock : Option OraError
  enqueue : EnqueueEnv

/-- `p_enqueue_importaction`. -/
def pEnqueueImportaction (env : DownloadEnv) (self : DownloadFilesAction) : Plsql Unit := do
  let dfd ← selectInto (env.defsLater.filter (·.downloadFileDefId = self.downloadFileDefId))
  call env.importBlock
  pEnqueue env.enqueue .importFiles dfd.importActionOwner false
    (.importFiles ⟨dfd.importActionOwner, dfd.importActionTypename, self.url, self.hashMd5⟩)

/-- The check of the hash. -/
def checkHash (env : DownloadEnv) (self : DownloadFilesAction) (blob : List UInt8) : Plsql Unit :=
  match self.hashMd5 with
  | none => pure ()
  | some expected => do
      let hash ← outcome (env.hash blob)
      if utlRawCompare expected hash ≠ 0 then
        throw (raiseApplicationError (-20001)
          ("Expected hash=" ++ rawToHex expected ++ " current hash=" ++ rawToHex hash))

/-- The decompression. -/
def uncompress (env : DownloadEnv) (options : DownloadOptions) (blob : List UInt8) :
    Plsql (List UInt8) :=
  if options.compression = some "zip" then outcome (env.lzUncompress blob) else pure blob

/-- `o_download_files_action.p_exec`. -/
def downloadExec (env : DownloadEnv) (self : DownloadFilesAction) : Plsql Unit := do
  let urlAlreadyDownloaded := ((← view).downloadFiles.filter (·.hasUrl self.url)).length
  if urlAlreadyDownloaded > 0 then return
  let dfd ← selectInto (env.defs.filter (·.downloadFileDefId = self.downloadFileDefId))
  let downloadOptions ← outcome (jsonObject dfd.nextDownloadOptions)
  let maxRetries ← outcome env.downloadRetries
  call env.downloadRetryWait
  let (startTime, stopTime, blob) ← outcome (tryAgain env.attempts maxRetries 1)
  checkHash env self blob
  let content ← uncompress env downloadOptions blob
  call env.insert
  work fun db =>
    { db with downloadFiles := db.downloadFiles ++ [⟨startTime, stopTime, self.url, content⟩] }
  pEnqueueImportaction env self

/-! ### What it does -/

/-- The URL of an import action. -/
def Message.importUrl (m : Message) : Option String :=
  match m.action with
  | .downloadFiles _ => none
  | .importFiles a => a.url

/-- Nothing is stored and no import is enqueued. -/
structure Kept (db db' : Db) : Prop where
  files : db'.downloadFiles = db.downloadFiles
  imports : db'.enqueued .importFiles = db.enqueued .importFiles

/-- A row for a new URL is stored and an import of this URL is enqueued. -/
structure Stored (db db' : Db) (row : FileRow) (m : Message) : Prop where
  fresh : db.downloadFiles.filter (·.hasUrl row.url) = []
  files : db'.downloadFiles = db.downloadFiles ++ [row]
  imports : db'.enqueued .importFiles = db.enqueued .importFiles ++ [m]
  url : m.importUrl = row.url

/-- A row and an import come together, or neither. -/
def Hands (db db' : Db) : Prop := Kept db db' ∨ ∃ row m, Stored db db' row m

/-- Without a commit of its own, `p_enqueue` adds the message to the queue and does nothing else. -/
theorem ensures_pEnqueue {P : Db → Prop} (env : EnqueueEnv) (queue : QueueName)
    (recipient : String) (action : Action) :
    Ensures P (pEnqueue env queue recipient false action) fun _ db' =>
      ∃ db, P db ∧ db' = db.enqueue queue ⟨action, recipient⟩ := by
  rw [pEnqueue_eq]
  refine Ensures.call_bind ?_
  exact (Ensures.work fun db h => ⟨db, h, rfl⟩).bind fun _ => Ensures.pure fun _ h => h

/-- The comparison of the hashes changes nothing. -/
theorem ensures_checkHash {P : Db → Prop} (env : DownloadEnv) (self : DownloadFilesAction)
    (blob : List UInt8) : Ensures P (checkHash env self blob) fun _ => P := by
  unfold checkHash
  split
  · exact Ensures.pure fun _ h => h
  · refine (Ensures.outcome _).bind fun hash => ?_
    split
    · exact Ensures.throw
    · exact Ensures.pure fun _ h => h

/-- A new row is there, and then its import is enqueued. -/
theorem ensures_pEnqueueImportaction (env : DownloadEnv) (self : DownloadFilesAction) {db : Db}
    {row : FileRow} (hurl : row.url = self.url) :
    Ensures (fun w => db.downloadFiles.filter (·.hasUrl row.url) = [] ∧
        w.downloadFiles = db.downloadFiles ++ [row] ∧
        w.enqueued .importFiles = db.enqueued .importFiles)
      (pEnqueueImportaction env self) fun _ w => ∃ m, Stored db w row m := by
  unfold pEnqueueImportaction
  refine (ensures_selectInto _).bind fun dfd => Ensures.call_bind ?_
  refine (ensures_pEnqueue env.enqueue .importFiles dfd.importActionOwner _).weaken
    (fun _ h => h) ?_
  rintro _ w' ⟨w, ⟨hfresh, hfiles, himports⟩, rfl⟩
  have himport := fun m => enqueued_enqueue w .importFiles m
  rw [himports] at himport
  exact ⟨_, hfresh, hfiles, himport _, hurl.symm⟩

theorem ensures_uncompress {P : Db → Prop} (env : DownloadEnv) (options : DownloadOptions)
    (blob : List UInt8) : Ensures P (uncompress env options blob) fun _ => P := by
  unfold uncompress
  split
  · exact Ensures.outcome _
  · exact Ensures.pure fun _ h => h

/-- **Download.**  If `p_exec` returns, it has stored a new URL and enqueued its import, or it has
    done nothing; and it commits nothing. -/
theorem ensures_downloadExec (env : DownloadEnv) (self : DownloadFilesAction) (db : Db) :
    Ensures (Kept db) (downloadExec env self) fun _ => Hands db := by
  unfold downloadExec
  refine Ensures.view.bind fun w₀ => ?_
  dsimp only
  split
  · exact Ensures.pure fun w h => Or.inl h.2
  · rename_i hnone
    refine (ensures_selectInto _).bind fun dfd => (Ensures.outcome _).bind fun options =>
      (Ensures.outcome _).bind fun retries => Ensures.call_bind ?_
    refine (Ensures.outcome _).bind fun downloaded => (ensures_checkHash env self _).bind fun _ =>
      (ensures_uncompress env options _).bind fun content => Ensures.call_bind ?_
    -- the count has been 0, so that no row has the URL of the new one
    have hfresh : ∀ w, w₀ = w ∧ Kept db w → db.downloadFiles.filter (·.hasUrl self.url) = [] := by
      rintro w ⟨rfl, hkept⟩
      rw [← hkept.files, ← List.length_eq_zero_iff]
      omega
    let row : FileRow := ⟨downloaded.1, downloaded.2.1, self.url, content⟩
    refine (Ensures.work (Q := fun _ w => db.downloadFiles.filter (·.hasUrl row.url) = [] ∧
      w.downloadFiles = db.downloadFiles ++ [row] ∧
      w.enqueued .importFiles = db.enqueued .importFiles) ?_).bind fun _ => ?_
    · rintro w h
      exact ⟨hfresh w h, by rw [h.2.files], h.2.imports⟩
    · exact (ensures_pEnqueueImportaction env self rfl).weaken (fun _ h => h)
        fun _ w h => Or.inr ⟨row, h⟩

end Niuchacz.Oracle
