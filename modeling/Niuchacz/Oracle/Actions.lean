import Niuchacz.Oracle.DownloadFiles

namespace Niuchacz.Oracle

open Lib.Transaction

/-!
# Actions (`PACKAGE_BODIES/PKG_ACTIONS.sql`, `TYPES/O_ACTION.sql`)

An action is taken from its queue, executed and committed in one autonomous transaction; every
exception rolls it back and is raised again as number -20000.

* `pExec`, `pConsumeSingleAction` — one action.
* `consumed_all_or_nothing` — what it leaves behind.
* `urls_stored_once` — over any sequence of actions a URL is stored and handed on once.
* `pJobConsumerDfHandler`, `pJobConsumerIfHandler` — the loops of `PKG_DOWNLOAD_FILES` over the
  two queues; `consumers_stop_iff` — they end for an exception with the number -25228 only, which
  never reaches them.
-/

/-! ### One action -/

/-- What the execution of one action meets: `start_profiler`, the two kinds of actions, and
    `stop_profiler`. -/
structure ExecEnv where
  startProfiler : Option OraError
  download : DownloadEnv
  importExec : Option OraError
  stopProfiler : Option OraError

/-- The member `p_create`; that of an import reads the stored content. -/
def Action.pCreate : Action → Plsql Unit
  | .downloadFiles _ => pure ()
  | .importFiles self => do
      let _ ← selectInto ((← view).downloadFiles.filter (·.hasUrl self.url))

/-- The member `p_exec`; an import works on other tables, and may fail. -/
def Action.pExec (env : ExecEnv) : Action → Plsql Unit
  | .downloadFiles self => downloadExec env.download self
  | .importFiles _ => call env.importExec

/-- `pkg_actions.p_exec`; the members `p_destroy` do nothing. -/
def pExec (env : ExecEnv) : Option Action → Plsql Unit
  | none => pure ()
  | some action => do
      action.pCreate
      call env.startProfiler
      action.pExec env
      call env.stopProfiler

/-- What one call of `p_consume_single_action` meets. -/
structure ConsumeEnv where
  dequeue : DequeueEnv
  exec : ExecEnv

/-- A definition of a download. -/
def ratesDef : DownloadFilesDef :=
  ⟨1, "rates", none, none, none, "DWH_LOAD", "O_NBPDATA_IMPORT_ACTION", some "Y"⟩

/-- A call in which nothing fails, with this definition. -/
def ConsumeEnv.quiet : ConsumeEnv where
  dequeue := ⟨none, [], none⟩
  exec :=
    { startProfiler := none
      download :=
        { defs := [ratesDef]
          defsLater := [ratesDef]
          downloadRetries := .ok none
          downloadRetryWait := none
          attempts := fun _ => ⟨none, .ok ⟨"", httpOk, ""⟩, [], none, none, none, 0, 0, none⟩
          hash := .ok
          lzUncompress := .ok
          insert := none
          importBlock := none
          enqueue := ⟨none, none, none⟩ }
      importExec := none
      stopProfiler := none }

/-- `p_consume_single_action`, in the transaction that it works in. -/
def consumeBody (env : ConsumeEnv) (queue : QueueName) (consumer : String) : Plsql Unit :=
  tryCatch
    (do
      let action ← fDequeue env.dequeue queue consumer false
      pExec env.exec action
      commit)
    fun e => do
      rollback
      throw (raiseApplicationErrorKeep (-20000) "Error during processing action." e)

/-- `p_consume_single_action`, an autonomous transaction. -/
def pConsumeSingleAction (env : ConsumeEnv) (queue : QueueName) (consumer : String) (db : Db) :
    Done OraError Db Unit := session (consumeBody env queue consumer) db

/-! ### All or nothing -/

/-- `f_dequeue` takes a message at most: it stores nothing and enqueues no import. -/
theorem ensures_fDequeue (env : DequeueEnv) (queue : QueueName) (consumer : String) (db : Db) :
    Ensures (· = db) (fDequeue env queue consumer false) fun _ => Kept db := by
  -- a dequeue is repeated after some errors, and ends with the others
  have hloop : ∀ errors, Ensures (· = db) (dequeueLoop queue consumer errors) fun _ => Kept db := by
    intro errors
    induction errors with
    | nil =>
      unfold dequeueLoop
      refine Ensures.view.bind fun w => ?_
      split
      · exact Ensures.throw
      · refine (Ensures.work (Q := fun _ => Kept db) ?_).bind fun _ => Ensures.pure fun _ h => h
        rintro w' ⟨-, rfl⟩
        exact ⟨rfl, rfl⟩
    | cons e errors ih =>
      unfold dequeueLoop
      split
      · exact ih
      · exact Ensures.throw
  unfold fDequeue
  refine Ensures.call_bind ((hloop env.dequeue).bind fun m => Ensures.call_bind ?_)
  exact Ensures.pure fun _ h => h

/-- `p_exec` stores a row together with its import, or neither, whatever the action is. -/
theorem ensures_pExec (env : ExecEnv) (action : Option Action) (db : Db) :
    Ensures (Kept db) (pExec env action) fun _ => Hands db := by
  cases action with
  | none => exact Ensures.pure fun _ h => Or.inl h
  | some action =>
    -- the creation only looks the definition up
    have hcreate : Ensures (Kept db) action.pCreate fun _ => Kept db := by
      cases action with
      | downloadFiles self => exact Ensures.pure fun _ h => h
      | importFiles self =>
        refine Ensures.view.bind fun w => (ensures_selectInto _).bind fun _ => ?_
        exact Ensures.pure fun _ h => h.2
    -- only a download stores anything
    have hexec : Ensures (Kept db) (action.pExec env) fun _ => Hands db := by
      cases action with
      | downloadFiles self => exact ensures_downloadExec env.download self db
      | importFiles self =>
        exact (Ensures.call env.importExec).weaken (fun _ h => h) fun _ _ h => Or.inl h
    refine hcreate.bind fun _ => Ensures.call_bind (hexec.bind fun _ => ?_)
    exact Ensures.call env.stopProfiler

/-- **One action.**  It is taken, executed and committed as a whole, or everything is as it was and
    the exception has the number -20000. -/
theorem consumed_all_or_nothing (env : ConsumeEnv) (queue : QueueName) (consumer : String)
    (db : Db) :
    let done := pConsumeSingleAction env queue consumer db
    (done.result = .ok () ∧ done.commits = [done.committed] ∧ Hands db done.committed) ∨
      (∃ e, done.result = .error e ∧ e.code = -20000) ∧ done.commits = [] ∧
        done.committed = db := by
  have hbody : Ensures (· = db)
      (fDequeue env.dequeue queue consumer false >>= pExec env.exec) fun _ => Hands db :=
    (ensures_fDequeue env.dequeue queue consumer db).bind fun action =>
      ensures_pExec env.exec action db
  have hatomic := session_atomic hbody
    (raiseApplicationErrorKeep (-20000) "Error during processing action.") db rfl
  simp only [bind_assoc] at hatomic
  rcases hatomic with ⟨hok, hcommits, -, hhands⟩ | ⟨⟨e, herr⟩, hcommits, hdb⟩
  · exact Or.inl ⟨hok, hcommits, hhands⟩
  · exact Or.inr ⟨⟨_, herr, rfl⟩, hcommits, hdb⟩

/-! ### Every URL once -/

/-- The number of rows of a URL in `download_files`. -/
def Db.rows (db : Db) (url : String) : ℕ := (db.downloadFiles.filter (·.url = some url)).length

/-- The number of imports of a URL that have ever been enqueued. -/
def Db.imports (db : Db) (url : String) : ℕ :=
  ((db.enqueued .importFiles).filter (·.importUrl = some url)).length

/-- Every URL is stored at most once, and its imports are as many as its rows. -/
def OncePerUrl (db : Db) : Prop := ∀ url, db.rows url ≤ 1 ∧ db.imports url = db.rows url

/-- What stores nothing keeps the rows and imports of each URL. -/
theorem Kept.oncePerUrl {db db' : Db} (h : Kept db db') (hdb : OncePerUrl db) :
    OncePerUrl db' := by
  intro url
  rw [Db.imports, Db.rows, h.files, h.imports]
  exact hdb url

/-- A stored row is the first one of its URL and comes with its import. -/
theorem Stored.oncePerUrl {db db' : Db} {row : FileRow} {m : Message} (h : Stored db db' row m)
    (hdb : OncePerUrl db) : OncePerUrl db' := by
  intro url
  obtain ⟨hle, heq⟩ := hdb url
  simp only [Db.rows, Db.imports] at hle heq ⊢
  rw [h.files, h.imports, List.filter_append, List.length_append, List.filter_append,
    List.length_append, heq]
  by_cases hurl : row.url = some url
  · -- no row has had this URL
    have hnone : db.downloadFiles.filter (·.url = some url) = [] := by
      have hfresh := h.fresh
      rw [hurl] at hfresh
      simpa [FileRow.hasUrl] using hfresh
    simp [hnone, hurl, h.url]
  · simpa [hurl, h.url] using hle

/-- So every action keeps them in step. -/
theorem Hands.oncePerUrl {db db' : Db} (h : Hands db db') (hdb : OncePerUrl db) :
    OncePerUrl db' := by
  rcases h with h | ⟨row, m, h⟩
  · exact h.oncePerUrl hdb
  · exact h.oncePerUrl hdb

/-- What happens in the warehouse: an action of some queue is consumed, another session enqueues a
    message for `Q_DOWNLOAD_FILES`, or a queue moves one of its messages away. -/
inductive Label where
  | consume (env : ConsumeEnv) (queue : QueueName) (consumer : String)
  | produce (m : Message)
  | moveAway (queue : QueueName) (i : ℕ)

/-- One step of the warehouse. -/
def step (db : Db) : Label → Db
  | .consume env queue consumer => (pConsumeSingleAction env queue consumer db).committed
  | .produce m => db.enqueue .downloadFiles m
  | .moveAway queue i =>
      { db with queue := Function.update db.queue queue ((db.queue queue).eraseIdx i) }

/-- Nothing has been downloaded yet. -/
def Db.start (queue : QueueName → List Message) : Db := ⟨[], queue, fun _ => []⟩

/-- **Step.** -/
theorem oncePerUrl_step {db : Db} (h : OncePerUrl db) (l : Label) : OncePerUrl (step db l) := by
  cases l with
  | consume env queue consumer =>
    rcases consumed_all_or_nothing env queue consumer db with ⟨-, -, hhands⟩ | ⟨-, -, hdb⟩
    · exact hhands.oncePerUrl h
    · rw [step, hdb]
      exact h
  | produce m =>
    exact Kept.oncePerUrl ⟨rfl, enqueued_enqueue_of_ne db m (by decide)⟩ h
  | moveAway queue i => exact Kept.oncePerUrl ⟨rfl, rfl⟩ h

/-- **Run.** -/
theorem oncePerUrl_run (queue : QueueName → List Message) (labels : List Label) :
    OncePerUrl (labels.foldl step (Db.start queue)) := by
  have hrun : ∀ (labels : List Label) {db : Db}, OncePerUrl db →
      OncePerUrl (labels.foldl step db) := by
    intro labels
    induction labels with
    | nil => exact fun h => h
    | cons l labels ih => exact fun h => ih (oncePerUrl_step h l)
  exact hrun labels fun url => ⟨Nat.zero_le _, rfl⟩

/-- **Each URL is stored and handed on once.**  After any run, and at every commit of a further
    action, a URL has at most one row in `download_files`, and as many imports have ever been
    enqueued for it; an action that fails leaves everything as it was. -/
theorem urls_stored_once (queue : QueueName → List Message) (labels : List Label)
    (env : ConsumeEnv) (consumer : String) :
    let db := labels.foldl step (Db.start queue)
    let done := pConsumeSingleAction env .downloadFiles consumer db
    OncePerUrl db ∧ (∀ db' ∈ done.commits, OncePerUrl db') ∧
      ∀ e, done.result = .error e → done.committed = db := by
  intro db done
  have hdb : OncePerUrl db := oncePerUrl_run queue labels
  refine ⟨hdb, ?_⟩
  -- the action commits once, at its end, or not at all
  rcases consumed_all_or_nothing env .downloadFiles consumer db with
    ⟨hok, hcommits, hhands⟩ | ⟨-, hcommits, hsame⟩
  · refine ⟨?_, ?_⟩
    · intro db' hmem
      rw [hcommits, List.mem_singleton] at hmem
      rw [hmem]
      exact hhands.oncePerUrl hdb
    · intro e he
      rw [hok] at he
      cases he
  · refine ⟨?_, fun _ _ => hsame⟩
    intro db' hmem
    rw [hcommits] at hmem
    cases hmem

-- two messages with one URL: the second one finds the row
example :
    let m : Message := ⟨.downloadFiles ⟨1, some "rates", none⟩, "DWH_LOAD"⟩
    let l : Label := .consume .quiet .downloadFiles "DWH_LOAD"
    let db := [.produce m, .produce m, l, l].foldl step (Db.start fun _ => [])
    db.rows "rates" = 1 ∧ db.imports "rates" = 1 ∧ db.queue .downloadFiles = [] := by
  decide +kernel

/-! ### The consumers -/

/-- One round of a consumer: what its call of `p_consume_single_action` meets, and what other
    sessions and the queue itself do before the next one. -/
structure ConsumerRound where
  env : ConsumeEnv
  between : Db → Db

/-- The loop of a consumer, for at most `fuel` rounds; `none` says that it is still running. -/
def jobConsumer (queue : QueueName) (consumer : String) (rounds : ℕ → ConsumerRound) :
    (fuel i : ℕ) → Db → Option Db
  | 0, _, _ => none
  | fuel + 1, i, db =>
      let done := pConsumeSingleAction (rounds i).env queue consumer db
      let next := (rounds i).between done.committed
      match done.result with
      | .ok () => jobConsumer queue consumer rounds fuel (i + 1) next
      | .error e =>
          if e.code = dbmsaqTimeout then some done.committed
          else jobConsumer queue consumer rounds fuel (i + 1) next

/-- `p_job_consumer_df_handler`. -/
def pJobConsumerDfHandler (consumer : String) (rounds : ℕ → ConsumerRound) (fuel : ℕ) (db : Db) :
    Option Db := jobConsumer .downloadFiles consumer rounds fuel 0 db

/-- `p_job_consumer_if_handler`. -/
def pJobConsumerIfHandler (consumer : String) (rounds : ℕ → ConsumerRound) (fuel : ℕ) (db : Db) :
    Option Db := jobConsumer .importFiles consumer rounds fuel 0 db

/-- The tables and queues at the start of a round, as long as the loop goes on. -/
def roundDb (queue : QueueName) (consumer : String) (rounds : ℕ → ConsumerRound) (db : Db) : ℕ → Db
  | 0 => db
  | i + 1 =>
      let db := roundDb queue consumer rounds db i
      (rounds i).between (pConsumeSingleAction (rounds i).env queue consumer db).committed

/-- The dequeue of a round ends with ORA-25228. -/
def TimesOut (queue : QueueName) (consumer : String) (rounds : ℕ → ConsumerRound) (db : Db)
    (i : ℕ) : Prop :=
  ∃ e, (session (fDequeue (rounds i).env.dequeue queue consumer false)
      (roundDb queue consumer rounds db i)).result = .error e ∧ e.code = dbmsaqTimeout

/-- The loop is left after the first round in which the dequeue times out. -/
def StopsWhenDrained (queue : QueueName) (consumer : String) (rounds : ℕ → ConsumerRound) (db : Db)
    (handler : (fuel : ℕ) → Option Db) : Prop :=
  ∀ i, TimesOut queue consumer rounds db i → (∀ j < i, ¬ TimesOut queue consumer rounds db j) →
    ∃ db', handler (i + 1) = some db'

/-- **A consumer never returns**, whatever the queues contain, whatever the actions do and whatever
    happens between the rounds. -/
theorem jobConsumer_eq_none (queue : QueueName) (consumer : String) (rounds : ℕ → ConsumerRound)
    (fuel i : ℕ) (db : Db) : jobConsumer queue consumer rounds fuel i db = none := by
  induction fuel generalizing i db with
  | zero => rfl
  | succ fuel ih =>
    rcases consumed_all_or_nothing (rounds i).env queue consumer db with
      ⟨hok, -⟩ | ⟨⟨e, herr, hcode⟩, -⟩
    · simp only [jobConsumer, hok, ih]
    · -- whatever has been raised, a timeout included, arrives as -20000
      have hne : e.code ≠ dbmsaqTimeout := by
        rw [hcode]
        decide
      simp only [jobConsumer, herr, if_neg hne, ih]

/-- As a consumer does not return, it stops at a drained queue only in the sense that there is no
    round in which its queue is drained. -/
theorem stopsWhenDrained_iff (queue : QueueName) (consumer : String) (rounds : ℕ → ConsumerRound)
    (db : Db) :
    StopsWhenDrained queue consumer rounds db
        (fun fuel => jobConsumer queue consumer rounds fuel 0 db) ↔
      ∀ i, ¬ TimesOut queue consumer rounds db i := by
  constructor
  · intro hstops i
    -- no round is the first one with a timeout
    induction i using Nat.strongRecOn with
    | ind i ih =>
      intro hi
      obtain ⟨db', hdb'⟩ := hstops i hi ih
      have hnone := jobConsumer_eq_none queue consumer rounds (i + 1) 0 db
      exact absurd (hnone.symm.trans hdb') (Option.some_ne_none db').symm
  · intro hnever i hi
    exact absurd hi (hnever i)

/-- **The consumers do not stop.**  They are left after the first dequeue that times out only if no
    dequeue ever times out: the exception that ends the loop never reaches it. -/
theorem consumers_stop_iff (consumer : String) (rounds : ℕ → ConsumerRound) (db : Db) :
    (StopsWhenDrained .downloadFiles consumer rounds db
        (fun fuel => pJobConsumerDfHandler consumer rounds fuel db) ↔
      ∀ i, ¬ TimesOut .downloadFiles consumer rounds db i) ∧
    (StopsWhenDrained .importFiles consumer rounds db
        (fun fuel => pJobConsumerIfHandler consumer rounds fuel db) ↔
      ∀ i, ¬ TimesOut .importFiles consumer rounds db i) :=
  ⟨stopsWhenDrained_iff _ _ _ _, stopsWhenDrained_iff _ _ _ _⟩

/-- The queue is empty and nothing fails: the dequeue times out, and the consumer goes on. -/
theorem timeout_not_noticed :
    TimesOut .downloadFiles "DWH_LOAD" (fun _ => ⟨ConsumeEnv.quiet, id⟩) (Db.start fun _ => []) 0 ∧
      ∀ fuel, pJobConsumerDfHandler "DWH_LOAD" (fun _ => ⟨ConsumeEnv.quiet, id⟩) fuel
        (Db.start fun _ => []) = none :=
  ⟨⟨_, rfl, rfl⟩, fun fuel => jobConsumer_eq_none _ _ _ fuel 0 _⟩

end Niuchacz.Oracle
