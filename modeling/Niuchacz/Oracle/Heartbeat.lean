import Niuchacz.Oracle.Model
import Mathlib.Data.List.DropRight

namespace Niuchacz.Oracle

/-!
# The heartbeat of a queue

`p_heartbeat_queue` of `PKG_ACTIONS_INTERNAL` looks a queue and its exception queue up in the
catalogue and calls `dbms_aqadm` for whatever is not as it should be.

* `Catalogue`, `AqOp.apply` — `user_queue_tables`, `user_queues` and the operations of `dbms_aqadm`
  on them.
* `pHeartbeatQueue` — the procedure, with the operations that it issues.
* `heartbeatOps_eq_nil_iff` — when nothing is issued.
* `issue_queueOps`, `issue_queueOps_of_blocked` — what the part for one of the queues does to the
  catalogue.
* `heartbeat_idempotent_iff` — when a second heartbeat has nothing to do, and when the name of the
  exception queue stands for the same queues.

A `varchar2` is a list of characters, and `NULL` is the empty one.
-/

abbrev Varchar := List Char

/-- `upper`. -/
def upper (s : Varchar) : Varchar := s.map Char.toUpper

/-- `rtrim(s, set)`: every character of the set is removed from the end. -/
def rtrim (s set : Varchar) : Varchar := s.rdropWhile (· ∈ set)

/-! ### The catalogue -/

inductive QueueType where
  | normalQueue
  | exceptionQueue
  deriving DecidableEq

/-- A row of `user_queues`. -/
structure UserQueue where
  queueTable : Varchar
  queueType : QueueType
  enqueueEnabled : Bool
  dequeueEnabled : Bool
  deriving DecidableEq

/-- `user_queue_tables`, and the rows of `user_queues` by their names. -/
structure Catalogue where
  userQueueTables : Varchar → Bool
  userQueues : Varchar → Option UserQueue

def Catalogue.setQueue (c : Catalogue) (name : Varchar) (row : UserQueue) : Catalogue :=
  { c with userQueues := Function.update c.userQueues name (some row) }

/-- The operations of `dbms_aqadm`. -/
inductive AqOp where
  | createQueueTable (queueTable : Varchar)
  | createQueue (queueName : Varchar) (queueType : QueueType) (queueTable : Varchar)
  | stopQueue (queueName : Varchar)
  | startQueue (queueName : Varchar) (enqueue dequeue : Bool)
  deriving DecidableEq

/-- Change the row of a queue. -/
def Catalogue.alterQueue (c : Catalogue) (name : Varchar) (f : UserQueue → UserQueue) :
    Except OraError Catalogue :=
  match c.userQueues name with
  | none => .error ⟨-24010, "QUEUE does not exist", []⟩
  | some row => .ok (c.setQueue name (f row))

/-- What an operation does; names are stored in upper case.  `stop_queue` clears both flags,
    `start_queue` sets those that are passed as true. -/
def AqOp.apply (c : Catalogue) : AqOp → Except OraError Catalogue
  | .createQueueTable queueTable =>
      if c.userQueueTables (upper queueTable) then
        .error ⟨-24001, "cannot create QUEUE_TABLE, it already exists", []⟩
      else .ok
        { c with userQueueTables := Function.update c.userQueueTables (upper queueTable) true }
  | .createQueue queueName queueType queueTable =>
      if queueName = [] then .error ⟨-24000, "invalid value NULL for QUEUE_NAME", []⟩
      else if !c.userQueueTables (upper queueTable) then
        .error ⟨-24002, "QUEUE_TABLE does not exist", []⟩
      else if (c.userQueues (upper queueName)).isSome then
        .error ⟨-24006, "cannot create QUEUE, it already exists", []⟩
      else .ok (c.setQueue (upper queueName) ⟨upper queueTable, queueType, false, false⟩)
  | .stopQueue queueName =>
      c.alterQueue (upper queueName) fun row =>
        { row with enqueueEnabled := false, dequeueEnabled := false }
  | .startQueue queueName enqueue dequeue =>
      c.alterQueue (upper queueName) fun row =>
        { row with
          enqueueEnabled := row.enqueueEnabled || enqueue
          dequeueEnabled := row.dequeueEnabled || dequeue }

/-! ### The procedure -/

/-- `g_queue_table`. -/
def gQueueTable : Varchar := "core_actions_queue".toList

/-- `l_upp_queue_table`. -/
def uppQueueTable : Varchar := upper gQueueTable

/-- `l_upp_queue_name` and `l_upp_exception_queue_name`. -/
def queueNames (iQueueName : Varchar) : Varchar × Varchar :=
  let uppQueueName :=
    if ['_', 'E'] <:+ iQueueName then rtrim (upper iQueueName) ['_', 'E'] else upper iQueueName
  (uppQueueName, upper uppQueueName ++ ['_', 'E'])

/-- `exists (select 1 from user_queues where name = … and …)`; no name is equal to `NULL`. -/
def Catalogue.existsQueue (c : Catalogue) (name : Varchar) (cond : UserQueue → Bool) : Bool :=
  name ≠ [] && (c.userQueues name).any cond

/-- `queue_table = l_upp_queue_table and queue_type = …`. -/
def UserQueue.hasType (queueType : QueueType) (row : UserQueue) : Bool :=
  row.queueTable = uppQueueTable && row.queueType = queueType

/-- `… and enqueue_enabled = … and dequeue_enabled = …`. -/
def UserQueue.isActive (queueType : QueueType) (enqueue dequeue : Bool) (row : UserQueue) : Bool :=
  row.hasType queueType && row.enqueueEnabled = enqueue && row.dequeueEnabled = dequeue

/-- Create a queue if it does not exist; restart it if it is not active. -/
def queueOps (queueExists isActive : Bool) (queueName : Varchar) (queueType : QueueType)
    (enqueue dequeue : Bool) : List AqOp :=
  (if !queueExists then [.createQueue queueName queueType gQueueTable] else []) ++
    if !isActive then [.stopQueue queueName, .startQueue queueName enqueue dequeue] else []

/-- The operations that are due.  What they depend on is selected before the first of them.  An
    exception queue counts as active if messages can be put into it and not be taken from it, and
    is started the other way round. -/
def heartbeatOps (c : Catalogue) (queueName exceptionQueueName : Varchar) : List AqOp :=
  let queueTableExists := c.userQueueTables uppQueueTable
  let queueExists := c.existsQueue queueName (UserQueue.hasType .normalQueue)
  let queueIsActive := c.existsQueue queueName (UserQueue.isActive .normalQueue true true)
  let exceptionqueueExists :=
    c.existsQueue exceptionQueueName (UserQueue.hasType .exceptionQueue)
  let exceptionqueueIsActive :=
    c.existsQueue exceptionQueueName (UserQueue.isActive .exceptionQueue true false)
  (if !queueTableExists then [.createQueueTable gQueueTable] else []) ++
    queueOps queueExists queueIsActive queueName .normalQueue true true ++
    queueOps exceptionqueueExists exceptionqueueIsActive exceptionQueueName .exceptionQueue
      false true

/-- What a call leaves behind: the catalogue, the operations that it has issued, and the exception
    that has ended it. -/
structure Heartbeat where
  catalogue : Catalogue
  issued : List AqOp
  error : Option OraError

/-- Issue operations until one of them raises an exception. -/
def issue (c : Catalogue) : List AqOp → Heartbeat
  | [] => ⟨c, [], none⟩
  | op :: ops =>
      match op.apply c with
      | .error e => ⟨c, [op], some e⟩
      | .ok c' => ⟨(issue c' ops).catalogue, op :: (issue c' ops).issued, (issue c' ops).error⟩

/-- `p_heartbeat_queue`. -/
def pHeartbeatQueue (c : Catalogue) (iQueueName : Varchar) : Heartbeat :=
  let (queueName, exceptionQueueName) := queueNames iQueueName
  issue c (heartbeatOps c queueName exceptionQueueName)

/-- Unfolding lemma: `p_heartbeat_queue` issues its operations for the two names. -/
theorem pHeartbeatQueue_eq (c : Catalogue) (i : Varchar) :
    pHeartbeatQueue c i = issue c (heartbeatOps c (queueNames i).1 (queueNames i).2) := rfl

/-! ### Names -/

variable {c c' : Catalogue} {N name : Varchar} {ops ops' : List AqOp} {queueType : QueueType}
  {enqueue dequeue : Bool}

/-- `upper` works character by character. -/
theorem upper_append (s t : Varchar) : upper (s ++ t) = upper s ++ upper t := List.map_append

/-- The exception queue of an upper-case name. -/
theorem upper_exceptionQueue (hN : upper N = N) : upper (N ++ ['_', 'E']) = N ++ ['_', 'E'] := by
  rw [upper_append, hN]
  rfl

/-- Called with an upper-case name that does not end in `_E`, it works on that queue and on the one
    with `_E` at the end. -/
theorem queueNames_of_upper (hN : upper N = N) (hE : ¬ ['_', 'E'] <:+ N) :
    queueNames N = (N, N ++ ['_', 'E']) := by
  rw [queueNames, if_neg hE, hN, hN]

/-- `rtrim` cuts off the characters `_` and `E`, not the word `_E`: it does not stop there. -/
theorem rtrim_exceptionQueue (N : Varchar) :
    rtrim (N ++ ['_', 'E']) ['_', 'E'] = rtrim N ['_', 'E'] := by
  have hsplit : N ++ ['_', 'E'] = (N ++ ['_']) ++ ['E'] := by simp
  rw [rtrim, hsplit, List.rdropWhile_concat_pos _ _ _ (by simp),
    List.rdropWhile_concat_pos _ _ _ (by simp), rtrim]

/-- Nothing is trimmed off a name exactly if it does not end in a character of the set. -/
theorem rtrim_eq_self_iff {set : Varchar} : rtrim N set = N ↔ ∀ ch ∈ N.getLast?, ch ∉ set := by
  rw [rtrim, List.rdropWhile_eq_self_iff]
  by_cases hN : N = []
  · simp [hN]
  · simp [hN, List.getLast?_eq_some_getLast hN]

/-- So the heartbeat of an exception queue goes to a queue whose name has lost all of these
    characters at its end. -/
theorem queueNames_exceptionQueue (hN : upper N = N) :
    (queueNames (N ++ ['_', 'E'])).1 = rtrim N ['_', 'E'] := by
  show (if ['_', 'E'] <:+ N ++ ['_', 'E'] then _ else _) = _
  rw [if_pos (List.suffix_append N _), upper_exceptionQueue hN, rtrim_exceptionQueue]

/-! ### Operations one after another -/

/-- Unfolding lemma: an operation that succeeds is followed by the others. -/
theorem issue_cons_ok {op : AqOp} (h : op.apply c = .ok c') (ops : List AqOp) :
    issue c (op :: ops) =
      ⟨(issue c' ops).catalogue, op :: (issue c' ops).issued, (issue c' ops).error⟩ := by
  rw [issue, h]

/-- Unfolding lemma: an operation that fails is the last one issued. -/
theorem issue_cons_error {op : AqOp} {e : OraError} (h : op.apply c = .error e)
    (ops : List AqOp) : issue c (op :: ops) = ⟨c, [op], some e⟩ := by
  rw [issue, h]

/-- If the first operations succeed, the others go on from there. -/
theorem issue_append (herr : (issue c ops).error = none) :
    (issue c (ops ++ ops')).catalogue = (issue (issue c ops).catalogue ops').catalogue := by
  induction ops generalizing c with
  | nil => rfl
  | cons op ops ih =>
    rw [List.cons_append]
    cases happly : op.apply c with
    | error e => simp [issue_cons_error happly] at herr
    | ok c₁ =>
      rw [issue_cons_ok happly] at herr ⊢
      rw [issue_cons_ok happly]
      exact ih herr

/-- If one of them fails, the others are not reached. -/
theorem issue_append_of_error {e : OraError} (herr : (issue c ops).error = some e) :
    (issue c (ops ++ ops')).catalogue = (issue c ops).catalogue := by
  induction ops generalizing c with
  | nil => simp [issue] at herr
  | cons op ops ih =>
    rw [List.cons_append]
    cases happly : op.apply c with
    | error e => rw [issue_cons_error happly, issue_cons_error happly]
    | ok c₁ =>
      rw [issue_cons_ok happly] at herr ⊢
      rw [issue_cons_ok happly]
      exact ih herr

/-- Nothing is issued only if there is nothing to be issued: a failed operation counts. -/
theorem issued_eq_nil_iff : (issue c ops).issued = [] ↔ ops = [] := by
  cases ops with
  | nil => simp [issue]
  | cons op ops =>
    cases happly : op.apply c with
    | error e => simp [issue_cons_error happly]
    | ok c₁ => simp [issue_cons_ok happly]

/-! ### The parts of the heartbeat -/

/-- The catalogue with the queue table. -/
def Catalogue.withTable (c : Catalogue) : Catalogue :=
  { c with userQueueTables := Function.update c.userQueueTables uppQueueTable true }

@[simp] theorem userQueueTables_withTable (c : Catalogue) :
    c.withTable.userQueueTables uppQueueTable = true := by
  simp [Catalogue.withTable]

theorem withTable_eq_self (h : c.userQueueTables uppQueueTable = true) : c.withTable = c := by
  rw [Catalogue.withTable, ← h, Function.update_eq_self]

/-- The first step creates the queue table where it is missing, and does not fail. -/
theorem issue_table (c : Catalogue) :
    let r := issue c
      (if !c.userQueueTables uppQueueTable then [.createQueueTable gQueueTable] else [])
    r.error = none ∧ r.catalogue = c.withTable := by
  cases htable : c.userQueueTables uppQueueTable with
  | true => simp [issue, withTable_eq_self htable]
  | false =>
    have hcreate : (AqOp.createQueueTable gQueueTable).apply c = .ok c.withTable := by
      have htable' : c.userQueueTables (upper gQueueTable) = false := htable
      simp [AqOp.apply, htable', Catalogue.withTable, uppQueueTable]
    simp [issue_cons_ok hcreate, issue]

/-- The row that a restart leaves. -/
theorem issue_restart {row : UserQueue} (hname : upper name = name)
    (hrow : c.userQueues name = some row) (enqueue dequeue : Bool) :
    issue c [.stopQueue name, .startQueue name enqueue dequeue] =
      ⟨c.setQueue name ⟨row.queueTable, row.queueType, enqueue, dequeue⟩,
        [.stopQueue name, .startQueue name enqueue dequeue], none⟩ := by
  simp [issue, AqOp.apply, Catalogue.alterQueue, Catalogue.setQueue, hname, hrow]

/-- A queue whose name is free is created in the table, stopped. -/
theorem apply_createQueue (hname : upper name = name) (hnull : name ≠ [])
    (htable : c.userQueueTables uppQueueTable = true) (hrow : c.userQueues name = none)
    (queueType : QueueType) :
    (AqOp.createQueue name queueType gQueueTable).apply c =
      .ok (c.setQueue name ⟨uppQueueTable, queueType, false, false⟩) := by
  have htable' : c.userQueueTables (upper gQueueTable) = true := htable
  simp [AqOp.apply, hname, hnull, htable', hrow, uppQueueTable]

/-- The operations for one of the queues; `isActive` is the test for its flags. -/
def Catalogue.queueOps (c : Catalogue) (isActive : UserQueue → Bool) (name : Varchar)
    (queueType : QueueType) (enqueue dequeue : Bool) : List AqOp :=
  Oracle.queueOps (c.existsQueue name (UserQueue.hasType queueType)) (c.existsQueue name isActive)
    name queueType enqueue dequeue

/-- There is no name, or a queue of this name that is somewhere else or of another type. -/
def Blocked (c : Catalogue) (name : Varchar) (queueType : QueueType) : Prop :=
  name = [] ∨ ∃ row, c.userQueues name = some row ∧ row.hasType queueType = false

/-- The row of a queue for which the operations succeed: it stays as it is if the queue is active,
    and otherwise it gets the flags of the restart. -/
def settledRow (isActive : UserQueue → Bool) (queueType : QueueType) (enqueue dequeue : Bool)
    (row : Option UserQueue) : UserQueue :=
  (row.filter isActive).getD ⟨uppQueueTable, queueType, enqueue, dequeue⟩

/-- **One queue, nothing in the way.** -/
theorem issue_queueOps (hname : upper name = name)
    (htable : c.userQueueTables uppQueueTable = true) (hfree : ¬ Blocked c name queueType)
    (isActive : UserQueue → Bool) (enqueue dequeue : Bool) :
    let r := issue c (c.queueOps isActive name queueType enqueue dequeue)
    r.error = none ∧ r.catalogue =
      c.setQueue name (settledRow isActive queueType enqueue dequeue (c.userQueues name)) := by
  have hnull : name ≠ [] := fun h => hfree (Or.inl h)
  cases hq : c.userQueues name with
  | none =>
    have hops : c.queueOps isActive name queueType enqueue dequeue =
        [.createQueue name queueType gQueueTable, .stopQueue name,
          .startQueue name enqueue dequeue] := by
      simp [Catalogue.queueOps, queueOps, Catalogue.existsQueue, hq]
    have hcreate := apply_createQueue hname hnull htable hq queueType
    -- a new queue has both flags cleared, as after a stop
    have hrow' : (c.setQueue name ⟨uppQueueTable, queueType, false, false⟩).userQueues name =
        some ⟨uppQueueTable, queueType, false, false⟩ := Function.update_self ..
    rw [hops, issue_cons_ok hcreate, issue_restart hname hrow']
    simp [settledRow, Catalogue.setQueue]
  | some row =>
    have htype : row.hasType queueType = true := by
      by_contra hother
      exact hfree (Or.inr ⟨row, hq, by simpa using hother⟩)
    obtain ⟨htab, hty⟩ : row.queueTable = uppQueueTable ∧ row.queueType = queueType := by
      simpa [UserQueue.hasType] using htype
    cases hactive : isActive row with
    | true =>
      have hops : c.queueOps isActive name queueType enqueue dequeue = [] := by
        simp [Catalogue.queueOps, queueOps, Catalogue.existsQueue, hq, hnull, htype, hactive]
      have hsame : c.setQueue name row = c := by
        rw [Catalogue.setQueue, ← hq, Function.update_eq_self]
      rw [hops]
      simp [issue, settledRow, Option.filter, hactive, hsame]
    | false =>
      have hops : c.queueOps isActive name queueType enqueue dequeue =
          [.stopQueue name, .startQueue name enqueue dequeue] := by
        simp [Catalogue.queueOps, queueOps, Catalogue.existsQueue, hq, hnull, htype, hactive]
      rw [hops, issue_restart hname hq]
      simp [settledRow, Option.filter, hactive, htab, hty]

/-- A name that is taken, or `NULL`, makes the creation fail. -/
theorem apply_createQueue_of_blocked (hname : upper name = name)
    (hblocked : Blocked c name queueType) (queueTable : Varchar) :
    ∃ e, (AqOp.createQueue name queueType queueTable).apply c = .error e := by
  rcases hblocked with rfl | ⟨row, hrow, -⟩
  · exact ⟨_, rfl⟩
  · simp only [AqOp.apply, hname, hrow, Option.isSome_some, if_true]
    split
    · exact ⟨_, rfl⟩
    · split <;> exact ⟨_, rfl⟩

/-- A blocked name is not that of a queue of the type, whatever else is asked for. -/
theorem existsQueue_of_blocked (hblocked : Blocked c name queueType) {cond : UserQueue → Bool}
    (hcond : ∀ row, cond row = true → row.hasType queueType = true) :
    c.existsQueue name cond = false := by
  rcases hblocked with rfl | ⟨row, hrow, htype⟩
  · rfl
  · have hrow' : cond row = false := by
      by_contra hne
      rw [hcond row (by simpa using hne)] at htype
      exact Bool.noConfusion htype
    simp [Catalogue.existsQueue, hrow, hrow']

/-- **One queue, something in the way.**  The catalogue stays as it is. -/
theorem issue_queueOps_of_blocked (hname : upper name = name)
    (hblocked : Blocked c name queueType) (isActive : UserQueue → Bool) (enqueue dequeue : Bool) :
    let r := issue c (c.queueOps isActive name queueType enqueue dequeue)
    (∃ e, r.error = some e) ∧ r.catalogue = c := by
  obtain ⟨e, hcreate⟩ := apply_createQueue_of_blocked hname hblocked gQueueTable
  have hexists := existsQueue_of_blocked hblocked fun _ h => h
  simp [Catalogue.queueOps, queueOps, hexists, issue_cons_error hcreate]

/-! ### The heartbeat -/

/-- An active queue is of the type that is asked for. -/
theorem hasType_of_isActive (row : UserQueue)
    (h : row.isActive queueType enqueue dequeue = true) : row.hasType queueType = true := by
  simp only [UserQueue.isActive, Bool.and_eq_true] at h
  exact h.1.1

/-- Nothing is due exactly if the table is there and both queues are active. -/
theorem heartbeatOps_eq_nil_iff {queueName exceptionQueueName : Varchar} :
    heartbeatOps c queueName exceptionQueueName = [] ↔
      c.userQueueTables uppQueueTable = true ∧
      c.existsQueue queueName (UserQueue.isActive .normalQueue true true) = true ∧
      c.existsQueue exceptionQueueName (UserQueue.isActive .exceptionQueue true false) = true := by
  have hexists : ∀ {name queueType enqueue dequeue},
      c.existsQueue name (UserQueue.isActive queueType enqueue dequeue) = true →
        c.existsQueue name (UserQueue.hasType queueType) = true := by
    intro name queueType enqueue dequeue h
    simp only [Catalogue.existsQueue, Bool.and_eq_true, Option.any_eq_true] at h ⊢
    obtain ⟨hnull, row, hrow, hactive⟩ := h
    exact ⟨hnull, row, hrow, hasType_of_isActive row hactive⟩
  constructor
  · intro h
    simp only [heartbeatOps, queueOps, List.append_eq_nil_iff, ite_eq_right_iff, Bool.not_eq_true',
      reduceCtorEq, imp_false, Bool.not_eq_false] at h
    exact ⟨h.1.1, h.1.2.2, h.2.2⟩
  · rintro ⟨htable, hqueue, hexception⟩
    simp [heartbeatOps, queueOps, htable, hqueue, hexception, hexists hqueue, hexists hexception]

/-- A settled row is active if the row before was, or if the flags of the restart are the right
    ones. -/
theorem isActive_settledRow {isActive : UserQueue → Bool} {row : Option UserQueue} :
    isActive (settledRow isActive queueType enqueue dequeue row) = true ↔
      row.any isActive = true ∨ isActive ⟨uppQueueTable, queueType, enqueue, dequeue⟩ = true := by
  cases row with
  | none => simp [settledRow]
  | some row => cases h : isActive row <;> simp [settledRow, Option.filter, h]

theorem existsQueue_setQueue {cond : UserQueue → Bool} {row : UserQueue} (hnull : name ≠ []) :
    (c.setQueue name row).existsQueue name cond = cond row := by
  simp [Catalogue.existsQueue, Catalogue.setQueue, hnull]

/-- Setting a queue does not change what is found for other names. -/
theorem existsQueue_setQueue_of_ne {cond : UserQueue → Bool} {other : Varchar} {row : UserQueue}
    (hne : other ≠ name) :
    (c.setQueue name row).existsQueue other cond = c.existsQueue other cond := by
  simp [Catalogue.existsQueue, Catalogue.setQueue, hne]

/-- A name is not blocked if it is free or has a queue of the right table and type. -/
theorem not_blocked_iff : ¬ Blocked c name queueType ↔ name ≠ [] ∧ ∀ row,
    c.userQueues name = some row → row.queueTable = uppQueueTable ∧ row.queueType = queueType := by
  simp [Blocked, UserQueue.hasType]

/-- A row with given flags is the only one of its kind. -/
theorem existsQueue_isActive_iff (hnull : name ≠ []) :
    c.existsQueue name (UserQueue.isActive queueType enqueue dequeue) = true ↔
      c.userQueues name = some ⟨uppQueueTable, queueType, enqueue, dequeue⟩ := by
  cases hq : c.userQueues name with
  | none => simp [Catalogue.existsQueue, hq]
  | some row =>
    obtain ⟨queueTable', queueType', enqueue', dequeue'⟩ := row
    simp [Catalogue.existsQueue, hq, hnull, UserQueue.isActive, UserQueue.hasType, and_assoc]

/-- A queue and its exception queue are two queues. -/
theorem exceptionQueue_ne (N : Varchar) : N ++ ['_', 'E'] ≠ N := by
  intro h
  have := congrArg List.length h
  simp at this

/-- The tests for the flags of the two queues. -/
abbrev queueIsActive : UserQueue → Bool := UserQueue.isActive .normalQueue true true

abbrev exceptionqueueIsActive : UserQueue → Bool := UserQueue.isActive .exceptionQueue true false

/-- The queue table comes first; what has been selected is still so then. -/
theorem issue_heartbeatOps (c : Catalogue) (N E : Varchar) :
    (issue c (heartbeatOps c N E)).catalogue =
      (issue c.withTable (c.withTable.queueOps queueIsActive N .normalQueue true true ++
        c.withTable.queueOps exceptionqueueIsActive E .exceptionQueue false true)).catalogue := by
  obtain ⟨herr, hcat⟩ := issue_table c
  have hops : heartbeatOps c N E =
      (if !c.userQueueTables uppQueueTable then [.createQueueTable gQueueTable] else []) ++
      (c.withTable.queueOps queueIsActive N .normalQueue true true ++
        c.withTable.queueOps exceptionqueueIsActive E .exceptionQueue false true) :=
    List.append_assoc ..
  rw [hops, issue_append herr, hcat]

/-- A blocked name ends the heartbeat. -/
theorem issue_heartbeatOps_of_blocked (hN : upper N = N) (hblocked : Blocked c N .normalQueue)
    (E : Varchar) : (issue c (heartbeatOps c N E)).catalogue = c.withTable := by
  have hblocked' : Blocked c.withTable N .normalQueue := hblocked
  obtain ⟨⟨e, herr⟩, hcat⟩ := issue_queueOps_of_blocked hN hblocked' queueIsActive true true
  rw [issue_heartbeatOps, issue_append_of_error herr, hcat]

/-- The catalogue when the queue itself has been attended to. -/
def Catalogue.withQueue (c : Catalogue) (N : Varchar) : Catalogue :=
  c.withTable.setQueue N (settledRow queueIsActive .normalQueue true true (c.userQueues N))

/-- Otherwise the exception queue is next. -/
theorem issue_heartbeatOps_of_free (hN : upper N = N) (hfree : ¬ Blocked c N .normalQueue)
    {E : Varchar} (hne : E ≠ N) :
    (issue c (heartbeatOps c N E)).catalogue =
      (issue (c.withQueue N)
        ((c.withQueue N).queueOps exceptionqueueIsActive E .exceptionQueue false
          true)).catalogue := by
  have hfree' : ¬ Blocked c.withTable N .normalQueue := hfree
  obtain ⟨herr, hcat⟩ :=
    issue_queueOps hN (userQueueTables_withTable c) hfree' queueIsActive true true
  have hops : c.withTable.queueOps exceptionqueueIsActive E .exceptionQueue false true =
      (c.withQueue N).queueOps exceptionqueueIsActive E .exceptionQueue false true := by
    simp only [Catalogue.queueOps, Catalogue.withQueue, existsQueue_setQueue_of_ne hne]
  rw [issue_heartbeatOps, issue_append herr, hcat, hops]
  rfl

/-- After the operations the queue itself is active. -/
theorem existsQueue_withQueue (hnull : N ≠ []) :
    (c.withQueue N).existsQueue N queueIsActive = true := by
  rw [Catalogue.withQueue, existsQueue_setQueue hnull]
  exact isActive_settledRow.mpr (Or.inr (by simp [UserQueue.isActive, UserQueue.hasType]))

/-- **Exception queue.**  A restart does not make it active: it is so afterwards exactly if it was
    so before.  Nothing else is touched. -/
theorem issue_exceptionQueue {E : Varchar} (hE : upper E = E) (hnull : E ≠ [])
    (htable : c.userQueueTables uppQueueTable = true) :
    let r := issue c (c.queueOps exceptionqueueIsActive E .exceptionQueue false true)
    r.catalogue.userQueueTables = c.userQueueTables ∧
      r.catalogue.existsQueue E exceptionqueueIsActive =
        c.existsQueue E exceptionqueueIsActive ∧
      ∀ other ≠ E, ∀ cond, r.catalogue.existsQueue other cond = c.existsQueue other cond := by
  by_cases hblocked : Blocked c E .exceptionQueue
  · obtain ⟨-, hcat⟩ := issue_queueOps_of_blocked hE hblocked exceptionqueueIsActive false true
    simp [hcat]
  · obtain ⟨-, hcat⟩ := issue_queueOps hE htable hblocked exceptionqueueIsActive false true
    -- the flags of the restart are not those that are looked for
    have hstarted :
        exceptionqueueIsActive ⟨uppQueueTable, .exceptionQueue, false, true⟩ = false := by
      simp [UserQueue.isActive]
    refine ⟨?_, ?_, ?_⟩
    · rw [hcat, Catalogue.setQueue]
    · rw [hcat, existsQueue_setQueue hnull, Bool.eq_iff_iff, isActive_settledRow, hstarted]
      simp [Catalogue.existsQueue, hnull]
    · intro other hother cond
      rw [hcat, existsQueue_setQueue_of_ne hother]

/-- **Second heartbeat.**  The queue is active after the first one unless its name is blocked; the
    exception queue is active only if it was so before. -/
theorem heartbeatOps_issue (hN : upper N = N) :
    heartbeatOps (issue c (heartbeatOps c N (N ++ ['_', 'E']))).catalogue N (N ++ ['_', 'E']) =
        [] ↔
      ¬ Blocked c N .normalQueue ∧
        c.existsQueue (N ++ ['_', 'E']) exceptionqueueIsActive = true := by
  have hne := exceptionQueue_ne N
  rw [heartbeatOps_eq_nil_iff]
  by_cases hblocked : Blocked c N .normalQueue
  · -- the first one has ended with an exception, and so will the second one
    have hblocked' : Blocked c.withTable N .normalQueue := hblocked
    have hinactive : c.withTable.existsQueue N queueIsActive = false :=
      existsQueue_of_blocked hblocked' hasType_of_isActive
    rw [issue_heartbeatOps_of_blocked hN hblocked, hinactive]
    simp [hblocked]
  · have hN0 : N ≠ [] := fun h => hblocked (Or.inl h)
    have htable : (c.withQueue N).userQueueTables uppQueueTable = true :=
      userQueueTables_withTable c
    have hbefore : (c.withQueue N).existsQueue (N ++ ['_', 'E']) exceptionqueueIsActive =
        c.existsQueue (N ++ ['_', 'E']) exceptionqueueIsActive := existsQueue_setQueue_of_ne hne
    obtain ⟨htables, hexception, hother⟩ :=
      issue_exceptionQueue (upper_exceptionQueue hN) (by simp) htable
    rw [issue_heartbeatOps_of_free hN hblocked hne, htables, htable, hother N hne.symm,
      existsQueue_withQueue hN0, hexception, hbefore]
    simp [hblocked]

/-- Nothing has been created yet. -/
def Catalogue.empty : Catalogue := ⟨fun _ => false, fun _ => none⟩

/-- The second operation on an empty catalogue tells names apart. -/
theorem issued_empty (i : Varchar) :
    (pHeartbeatQueue Catalogue.empty i).issued[1]? =
      some (.createQueue (queueNames i).1 .normalQueue gQueueTable) := by
  have hops : ∃ ops, heartbeatOps Catalogue.empty (queueNames i).1 (queueNames i).2 =
      .createQueueTable gQueueTable :: .createQueue (queueNames i).1 .normalQueue gQueueTable ::
        ops := by
    simp [heartbeatOps, queueOps, Catalogue.existsQueue, Catalogue.empty]
  obtain ⟨ops, hops⟩ := hops
  have htable : (AqOp.createQueueTable gQueueTable).apply Catalogue.empty =
      .ok Catalogue.empty.withTable := rfl
  rw [pHeartbeatQueue_eq, hops, issue_cons_ok htable]
  cases hcreate : (AqOp.createQueue (queueNames i).1 .normalQueue gQueueTable).apply
      Catalogue.empty.withTable with
  | error e => simp [issue_cons_error hcreate]
  | ok c => simp [issue_cons_ok hcreate]

/-- **Heartbeats.**  A second heartbeat issues nothing exactly if the exception queue was already
    there with the flags that are looked for, which no heartbeat sets, and nothing else has the
    name of the queue.  The name of the exception queue stands for the same two queues exactly if
    the name of the queue does not itself end in one of the trimmed characters. -/
theorem heartbeat_idempotent_iff (hN : upper N = N) (hE : ¬ ['_', 'E'] <:+ N) :
    (∀ c, (pHeartbeatQueue (pHeartbeatQueue c N).catalogue N).issued = [] ↔
      N ≠ [] ∧
      (∀ row, c.userQueues N = some row →
        row.queueTable = uppQueueTable ∧ row.queueType = .normalQueue) ∧
      c.userQueues (N ++ ['_', 'E']) = some ⟨uppQueueTable, .exceptionQueue, true, false⟩) ∧
    ((∀ c, pHeartbeatQueue c (N ++ ['_', 'E']) = pHeartbeatQueue c N) ↔
      ∀ ch ∈ N.getLast?, ch ≠ '_' ∧ ch ≠ 'E') := by
  have hnames := queueNames_of_upper hN hE
  constructor
  · intro c
    have hnull : N ++ ['_', 'E'] ≠ [] := by simp
    rw [pHeartbeatQueue_eq, pHeartbeatQueue_eq, hnames, issued_eq_nil_iff, heartbeatOps_issue hN,
      not_blocked_iff, existsQueue_isActive_iff hnull, and_assoc]
  · have hset : (∀ ch ∈ N.getLast?, ch ≠ '_' ∧ ch ≠ 'E') ↔ rtrim N ['_', 'E'] = N := by
      rw [rtrim_eq_self_iff]
      simp
    rw [hset]
    constructor
    -- in an empty catalogue the names of the created queues can be read off
    · intro hsame
      have hissued := congrArg (fun r => r.issued[1]?) (hsame Catalogue.empty)
      simp only [issued_empty, hnames, queueNames_exceptionQueue hN, Option.some.injEq,
        AqOp.createQueue.injEq, and_true] at hissued
      exact hissued
    · intro htrim c
      have hfst := (queueNames_exceptionQueue hN).trans htrim
      have hboth : queueNames (N ++ ['_', 'E']) = queueNames N := by
        rw [hnames]
        refine Prod.ext hfst ?_
        show upper (queueNames (N ++ ['_', 'E'])).1 ++ ['_', 'E'] = _
        rw [hfst, hN]
      rw [pHeartbeatQueue_eq, pHeartbeatQueue_eq, hboth]

/-- `Q_CORE_ACTIONS`. -/
def qCoreActions : Varchar := "Q_CORE_ACTIONS".toList

/-- The queue table and in it only the exception queue, with the flags that are looked for. -/
def prepared : Catalogue where
  userQueueTables := Function.update (fun _ => false) uppQueueTable true
  userQueues := Function.update (fun _ => none) (qCoreActions ++ ['_', 'E'])
    (some ⟨uppQueueTable, .exceptionQueue, true, false⟩)

/-- From there the heartbeat creates and starts the queue, and then has nothing more to do. -/
theorem heartbeat_idempotent_prepared :
    (pHeartbeatQueue prepared qCoreActions).issued.length = 3 ∧
      (pHeartbeatQueue (pHeartbeatQueue prepared qCoreActions).catalogue qCoreActions).issued = [] ∧
      pHeartbeatQueue prepared (qCoreActions ++ ['_', 'E']) =
        pHeartbeatQueue prepared qCoreActions := by
  have hN : upper qCoreActions = qCoreActions := by decide
  have hE : ¬ ['_', 'E'] <:+ qCoreActions := by decide
  obtain ⟨hidem, hsame⟩ := heartbeat_idempotent_iff hN hE
  refine ⟨by decide, (hidem prepared).mpr ⟨by decide, ?_, by decide⟩, hsame.mpr ?_ prepared⟩
  · intro row hrow
    have hnone : prepared.userQueues qCoreActions = none := by decide
    rw [hnone] at hrow
    cases hrow
  · intro ch hch
    have hlast : qCoreActions.getLast? = some 'S' := by decide
    rw [hlast] at hch
    obtain rfl := Option.some.inj hch
    decide

/-- Starting with nothing, every further heartbeat restarts the exception queue; and the heartbeat
    of the exception queue of `QUEUE` is one for a queue `QUEU`. -/
theorem exception_queue_restarted :
    (pHeartbeatQueue (pHeartbeatQueue .empty qCoreActions).catalogue qCoreActions).issued =
        [.stopQueue (qCoreActions ++ ['_', 'E']),
          .startQueue (qCoreActions ++ ['_', 'E']) false true] ∧
      queueNames "QUEUE".toList = ("QUEUE".toList, "QUEUE_E".toList) ∧
      queueNames "QUEUE_E".toList = ("QUEU".toList, "QUEU_E".toList) := by
  decide

end Niuchacz.Oracle
