import Niuchacz.Lib.Handover
import Niuchacz.Queue.Clients
import Niuchacz.Queue.Returns

namespace Niuchacz.Queue

open Lib.Handover Lib.Transition

/-!
# From call to call

What the callers of a queue see: a producer gives bytes to `queue_write` and gets a result, a
consumer gets bytes and a result from `queue_read`.

* `stepRead_turn`, `stepWrite_turn` — where a payload passes from the ring to a consumer and from
  the consumer to its caller, and where the bytes of a producer are stored and confirmed.
* `Carried` — whatever holds of all messages that are sent holds of all that are stored.
* `confirmed_balanced` — the messages stored are those whose `queue_write` has returned a length
  and those of the calls that are about to.
* `returned_balanced` — the payloads read are those returned and those about to be.
* `soleReader_run`, `soleWriter_run` — if one thread makes all calls of `queue_read`, or of
  `queue_write`, these are also in the same order.
* `declined_run` — a `queue_read` that returns no payload returns a negative number.
* `Good.drained_iff` — when no memory is in use, everything stored has been read.
* `queue_delivers_confirmed` — every confirmed message is returned exactly once.
-/

variable {ι : Type} {q : QueueT ι} {t : ι} {o : Outcome ι} {cap : ℕ}

/-- The payload that a consumer has released from the ring and not yet returned. -/
def Pc.inHand : Pc → Option (List UInt8)
  | .read _ (.broadcast _ buf) | .read _ (.ret _ buf) => some buf
  | _ => none

/-- The bytes that a producer has stored without having returned. -/
def Pc.filed : Pc → Option (List UInt8)
  | .write e _ p => if p.published then some e.buf else none
  | _ => none

/-- The result with which a consumer gives up. -/
def Pc.excuse : Pc → Option ℤ
  | .read _ (.bail ret) => some ret
  | _ => none

/-- The message that a producer has been called with. -/
def Pc.message : Pc → Option Entry
  | .write e _ _ => some e
  | _ => none

/-- The payloads that `queue_read` has returned. -/
def QueueT.returned (q : QueueT ι) : List (List UInt8) := q.readReturns.filterMap ReadReturn.payload

/-- The bytes for which `queue_write` has returned a length. -/
def QueueT.confirmed (q : QueueT ι) : List (List UInt8) :=
  (q.writeReturns.filter fun r => 0 ≤ r.2).map Prod.fst

theorem Pc.inHand_signalled (g : Option Side) (p : Pc) : (p.signalled g).inHand = p.inHand := by
  cases g with
  | none => rfl
  | some k =>
    simp only [Pc.signalled]
    unfold Pc.wake
    split
    · rfl
    · split <;> rfl
    · rfl
    · rfl

theorem Pc.filed_signalled (g : Option Side) (p : Pc) : (p.signalled g).filed = p.filed := by
  cases g with
  | none => rfl
  | some k =>
    simp only [Pc.signalled]
    unfold Pc.wake
    split
    · split <;> rfl
    · rfl
    · rfl
    · rfl

theorem Pc.message_signalled (g : Option Side) (p : Pc) : (p.signalled g).message = p.message := by
  cases g with
  | none => rfl
  | some k =>
    simp only [Pc.signalled]
    unfold Pc.wake
    split <;> rfl

theorem Pc.excuse_signalled (g : Option Side) (p : Pc) : (p.signalled g).excuse = p.excuse := by
  cases g with
  | none => rfl
  | some k =>
    simp only [Pc.signalled]
    unfold Pc.wake
    split
    · rfl
    · split <;> rfl
    · rfl
    · rfl

/-- Outside `queue_read` and `queue_write` nothing is under way. -/
theorem Pc.inHand_of_role {p : Pc} (h : p.role ≠ .read) : p.inHand = none := by
  cases p with
  | read timed p => exact absurd rfl h
  | _ => rfl

theorem Pc.excuse_of_role {p : Pc} (h : p.role ≠ .read) : p.excuse = none := by
  cases p with
  | read timed p => exact absurd rfl h
  | _ => rfl

/-- A thread that sends no message has filed none. -/
theorem Pc.filed_of_message {p : Pc} (h : p.message = none) : p.filed = none := by
  cases p with
  | write e timed p => cases h
  | _ => rfl

/-- Unfolding lemma: a message is confirmed by a result that is not negative. -/
theorem confirmed_logWrite (q : QueueT ι) (buf : List UInt8) (ret : ℤ) :
    (q.logWrite buf ret).confirmed = if 0 ≤ ret then q.confirmed ++ [buf] else q.confirmed := by
  unfold QueueT.confirmed QueueT.logWrite
  rw [List.filter_append]
  split <;> rename_i h <;> simp [h]

/-! ### Steps -/

/-- The steps of `queue_read`: with the unlock the payload is the thread's own, with the return it
    is the caller's. -/
theorem stepRead_turn {timed : Bool} {p : RPc} (h : stepRead q t timed p = some o) :
    Turn q.completed q.returned (Pc.read timed p).inHand o.q.completed o.q.returned
      o.pc.inHand := by
  cases p
  case lock =>
    obtain ⟨hq, hpc, -⟩ := lockThen_some h
    rw [hq, hpc]
    exact Turn.keep
  case woken timedOut =>
    obtain ⟨hq, hpc, -⟩ := lockThen_some h
    rw [hq, hpc]
    exact Turn.keep
  -- ==> the payload is taken out of the queue
  case unlock hdr buf =>
    cases h
    exact Turn.take buf
  -- ==> it is returned
  case ret hdr buf =>
    cases h
    have hret : (q.logRead ⟨some buf, readResult hdr buf⟩).returned = q.returned ++ [buf] := by
      simp [QueueT.returned, QueueT.logRead]
    rw [hret]
    exact Turn.give buf
  -- ==> nothing is returned, and nothing was in hand
  case bail ret =>
    cases h
    have hret : ((q.setMutex .read none).logRead ⟨none, ret⟩).returned = q.returned := by
      simp [QueueT.returned, QueueT.logRead, QueueT.setMutex]
    rw [hret]
    exact Turn.keep
  all_goals
    simp only [stepRead, goto] at h
    repeat' split at h
    all_goals
      cases h
      try exact Turn.keep

/-- The steps of `queue_write`: with the update of the used memory the bytes are stored, with the
    return they are confirmed. -/
theorem stepWrite_turn {e : Entry} {timed : Bool} {p : WPc} (hlen : e.buf.length < 2 ^ 31)
    (hsends : Pc.Sends cap q.accepted (.write e timed p)) (h : stepWrite q t e timed p = some o) :
    Turn (q.accepted.map Entry.buf) q.confirmed (Pc.write e timed p).filed
      (o.q.accepted.map Entry.buf) o.q.confirmed o.pc.filed := by
  cases p
  case lock =>
    obtain ⟨hq, hpc, -⟩ := lockThen_some h
    rw [hq, hpc]
    exact Turn.keep
  case woken timedOut =>
    obtain ⟨hq, hpc, -⟩ := lockThen_some h
    rw [hq, hpc]
    exact Turn.keep
  case entry =>
    simp only [stepWrite, goto] at h
    split at h <;> cases h
    · rw [confirmed_logWrite, if_neg (by decide)]
      exact Turn.keep
    · exact Turn.keep
  case bail ret =>
    cases h
    rw [confirmed_logWrite, if_neg (not_le.mpr hsends.2)]
    exact Turn.keep
  case addUsage =>
    cases h
    have hstored : (q.accepted ++ [e]).map Entry.buf = q.accepted.map Entry.buf ++ [e.buf] := by
      simp
    show Turn _ _ none ((q.accepted ++ [e]).map Entry.buf) _ (some e.buf)
    rw [hstored]
    exact Turn.take e.buf
  case broadcast =>
    cases h
    -- a message of less than 2 GiB: its length is not negative as an `int`
    have hnonneg : 0 ≤ toInt e.buf.length := by
      rw [(toInt_eq_self_iff _).mpr hlen]
      exact Int.natCast_nonneg _
    rw [confirmed_logWrite, if_pos hnonneg]
    exact Turn.give e.buf
  all_goals
    simp only [stepWrite, goto] at h
    repeat' split at h
    all_goals
      cases h
      try exact Turn.keep

/-- A step outside `queue_read`: nothing is read or returned. -/
structure Outcome.OutsideRead (q : QueueT ι) (p : Pc) (a : Act) (o : Outcome ι) : Prop where
  completed : o.q.completed = q.completed
  readReturns : o.q.readReturns = q.readReturns
  before : p.inHand = none
  after : o.pc.inHand = none
  excuse : o.pc.excuse = none
  role : o.pc.role = .read → p.role = .read ∨ ∃ timed, a = .call (.read timed)

/-- A step is a step of `queue_read` or one outside. -/
theorem outcome_read_cases {p : Pc} {a : Act} (h : outcome q t p a = some o) :
    (∃ timed p', p = .read timed p' ∧ stepRead q t timed p' = some o) ∨ o.OutsideRead q p a := by
  have hrole : o.pc.role ≠ .read → o.q.completed = q.completed →
      o.q.readReturns = q.readReturns → p.inHand = none → o.OutsideRead q p a :=
    fun hpc hc hr hp => ⟨hc, hr, hp, Pc.inHand_of_role hpc, Pc.excuse_of_role hpc,
      fun hread => absurd hread hpc⟩
  -- the functions that register and unregister threads are quiet
  have hquiet : p.inHand = none → o.Quiet q → o.OutsideRead q p a := by
    rintro hp ⟨hsame, hret, -, helse⟩
    refine hrole ?_ hsame.2.2.2 hret hp
    cases hpc : o.pc with
    | read timed p => rw [hpc] at helse; cases helse
    | destroy p => cases p <;> simp [Pc.role]
    | _ => simp [Pc.role]
  rcases (outcome_some h).2 with ⟨c, rfl, rfl, rfl⟩ | ⟨-, hgo⟩ | ⟨timedOut, -, hwake⟩
  -- a call: only that of `queue_read` leads into it
  · right
    cases c with
    | read timed => exact ⟨rfl, rfl, rfl, rfl, rfl, fun _ => Or.inr ⟨timed, rfl⟩⟩
    | _ => exact hrole (by simp [Call.start, Pc.role]) rfl rfl rfl
  · cases p with
    | idle => cases hgo
    | write e timed p =>
      obtain ⟨-, -, hc, hr⟩ := stepWrite_log hgo
      refine Or.inr (hrole ?_ hc hr rfl)
      rcases stepWrite_pc hgo with hpc | ⟨p', hpc⟩ <;> simp [hpc, Pc.role]
    | read timed p => exact Or.inl ⟨timed, p, rfl, hgo⟩
    | new k p => exact Or.inr (hquiet rfl (stepNew_quiet hgo))
    | free k p => exact Or.inr (hquiet rfl (stepFree_quiet hgo))
    | destroy p => exact Or.inr (hquiet rfl (stepDestroy_quiet hgo))
  -- waking up leaves a thread in the function in which it sleeps
  · right
    rcases stepWake_some hwake with ⟨e, timed, rfl, rfl⟩ | ⟨timed, rfl, rfl⟩ | ⟨k, rfl, rfl⟩
    · exact hrole (by simp [Pc.role]) rfl rfl rfl
    · exact ⟨rfl, rfl, rfl, rfl, rfl, fun _ => Or.inl rfl⟩
    · exact hrole (by simp [Pc.role]) rfl rfl rfl

/-- A step outside `queue_write`: nothing is stored or confirmed. -/
structure Outcome.OutsideWrite (q : QueueT ι) (p : Pc) (a : Act) (o : Outcome ι) : Prop where
  accepted : o.q.accepted = q.accepted
  writeReturns : o.q.writeReturns = q.writeReturns
  before : p.filed = none
  after : o.pc.filed = none
  message : ∀ e, o.pc.message = some e → p.message = some e ∨ ∃ timed, a = .call (.write e timed)

/-- A step is a step of `queue_write` or one outside. -/
theorem outcome_write_cases {p : Pc} {a : Act} (h : outcome q t p a = some o) :
    (∃ e timed p', p = .write e timed p' ∧ stepWrite q t e timed p' = some o) ∨
      o.OutsideWrite q p a := by
  have hnone : o.pc.message = none → o.q.accepted = q.accepted →
      o.q.writeReturns = q.writeReturns → p.filed = none → o.OutsideWrite q p a := by
    intro hpc ha hw hp
    refine ⟨ha, hw, hp, Pc.filed_of_message hpc, fun e he => ?_⟩
    rw [hpc] at he
    cases he
  rcases (outcome_some h).2 with ⟨c, rfl, rfl, rfl⟩ | ⟨-, hgo⟩ | ⟨timedOut, -, hwake⟩
  -- a call: only that of `queue_write` gives the thread a message
  · right
    cases c with
    | write e timed =>
      exact ⟨rfl, rfl, rfl, rfl, fun e' he => Or.inr ⟨timed, by rw [← Option.some.inj he]⟩⟩
    | _ => exact hnone rfl rfl rfl rfl
  · have hquiet : (∀ e timed p', p ≠ .write e timed p') → o.Quiet q → p.filed = none →
        o.OutsideWrite q p a := by
      rintro hp ⟨hsame, -, -, helse⟩ hfiled
      refine hnone ?_ hsame.2.2.1 (writeReturns_stepGo hp hgo) hfiled
      cases hpc : o.pc with
      | write e timed p => rw [hpc] at helse; cases helse
      | _ => rfl
    cases p with
    | idle => cases hgo
    | write e timed p => exact Or.inl ⟨e, timed, p, rfl, hgo⟩
    | read timed p =>
      refine Or.inr (hnone ?_ (stepRead_log hgo).2.1 (writeReturns_stepGo (by simp) hgo) rfl)
      rcases stepRead_pc hgo with hpc | ⟨p', hpc⟩ <;> rw [hpc] <;> rfl
    | new k p => exact Or.inr (hquiet (by simp) (stepNew_quiet hgo) rfl)
    | free k p => exact Or.inr (hquiet (by simp) (stepFree_quiet hgo) rfl)
    | destroy p => exact Or.inr (hquiet (by simp) (stepDestroy_quiet hgo) rfl)
  -- waking up leaves a thread with the message that it sends
  · right
    rcases stepWake_some hwake with ⟨e, timed, rfl, rfl⟩ | ⟨timed, rfl, rfl⟩ | ⟨k, rfl, rfl⟩
    · exact ⟨rfl, rfl, rfl, rfl, fun e he => Or.inl he⟩
    · exact hnone rfl rfl rfl rfl
    · exact hnone rfl rfl rfl rfl

/-- What any step does on the consumers' side. -/
theorem outcome_turn_read {p : Pc} {a : Act} (h : outcome q t p a = some o) :
    Turn q.completed q.returned p.inHand o.q.completed o.q.returned o.pc.inHand := by
  rcases outcome_read_cases h with ⟨timed, p', rfl, hread⟩ | hout
  · exact stepRead_turn hread
  · rw [QueueT.returned, QueueT.returned, hout.completed, hout.readReturns, hout.before, hout.after]
    exact Turn.keep

/-- What any step does on the producers' side. -/
theorem outcome_turn_write {p : Pc} {a : Act}
    (hlen : ∀ e, p.message = some e → e.buf.length < 2 ^ 31)
    (hsends : p.Sends cap q.accepted) (h : outcome q t p a = some o) :
    Turn (q.accepted.map Entry.buf) q.confirmed p.filed (o.q.accepted.map Entry.buf)
      o.q.confirmed o.pc.filed := by
  rcases outcome_write_cases h with ⟨e, timed, p', rfl, hwrite⟩ | hout
  · exact stepWrite_turn (hlen e rfl) hsends hwrite
  · rw [QueueT.confirmed, QueueT.confirmed, hout.accepted, hout.writeReturns, hout.before,
      hout.after]
    exact Turn.keep

/-! ### Runs -/

section
variable [DecidableEq ι] {s : State ι} {h : List (State ι × ι × Act)}

/-- A step changes what one thread has under way. -/
theorem under_way_apply {β : Type} {f : Pc → β} (hf : ∀ g p, f (p.signalled g) = f p)
    (s : State ι) (t : ι) (o : Outcome ι) :
    (fun u => f ((s.apply t o).pc u)) = Function.update (fun u => f (s.pc u)) t (f o.pc) := by
  funext u
  by_cases hu : u = t
  · simp [State.apply, hu]
  · simp [State.apply, Function.update_of_ne hu, hf]

/-- What holds of all threads and of the one that has made the step holds afterwards. -/
theorem forall_under_way {β : Type} {f : Pc → β} (hf : ∀ g p, f (p.signalled g) = f p)
    {P : ι → β → Prop} (hold : ∀ u, P u (f (s.pc u))) (hnew : P t (f o.pc)) (u : ι) :
    P u (f ((s.apply t o).pc u)) := by
  have happly := congrFun (under_way_apply hf s t o) u
  rw [happly]
  by_cases hu : u = t
  · rw [hu, Function.update_self]
    exact hnew
  · rw [Function.update_of_ne hu]
    exact hold u

/-- The messages given to `queue_write` have a property. -/
def Carries (P : Entry → Prop) : ι × Act → Prop
  | (_, .call (.write e _)) => P e
  | _ => True

/-- All messages that are under way, stored or answered have a property. -/
structure Carried (P : Entry → Prop) (s : State ι) : Prop where
  writing : ∀ t e, (s.pc t).message = some e → P e
  stored : ∀ e ∈ s.q.accepted, P e
  answered : ∀ r ∈ s.q.writeReturns, ∃ e, P e ∧ e.buf = r.1

omit [DecidableEq ι] in
/-- What the steps of `queue_write` store and answer is the message they were called with. -/
theorem stepWrite_carries {e : Entry} {timed : Bool} {p : WPc}
    (h : stepWrite q t e timed p = some o) :
    (o.q.accepted = q.accepted ∨ o.q.accepted = q.accepted ++ [e]) ∧
      (o.q.writeReturns = q.writeReturns ∨
        ∃ ret, o.q.writeReturns = q.writeReturns ++ [(e.buf, ret)]) := by
  cases p
  case lock =>
    rw [(lockThen_some h).1]
    exact ⟨Or.inl rfl, Or.inl rfl⟩
  case woken timedOut =>
    rw [(lockThen_some h).1]
    exact ⟨Or.inl rfl, Or.inl rfl⟩
  -- ==> the one step that accepts a message; results come from the steps that return
  case addUsage =>
    cases h
    exact ⟨Or.inr rfl, Or.inl rfl⟩
  all_goals
    simp only [stepWrite, goto] at h
    repeat' split at h
    all_goals
      cases h
      try first | exact ⟨Or.inl rfl, Or.inl rfl⟩ | exact ⟨Or.inl rfl, Or.inr ⟨_, rfl⟩⟩

/-- **Step.**  Nothing is stored that has not been sent. -/
theorem carried_step {P : Entry → Prop} {s' : State ι} {l : ι × Act} (hs : Carried P s)
    (hl : Carries P l) (h : step s l = some s') : Carried P s' := by
  obtain ⟨o, ho, rfl⟩ := Option.map_eq_some_iff.mp h
  obtain ⟨t, a⟩ := l
  -- broadcasts change nothing for the other threads
  have hassemble : (∀ e, o.pc.message = some e → P e) → (∀ e ∈ o.q.accepted, P e) →
      (∀ r ∈ o.q.writeReturns, ∃ e, P e ∧ e.buf = r.1) → Carried P (s.apply t o) :=
    fun hpc hacc hret => ⟨forall_under_way Pc.message_signalled
      (P := fun _ m => ∀ e, m = some e → P e) hs.writing hpc, hacc, hret⟩
  rcases outcome_write_cases ho with ⟨e, timed, p, hp, hwrite⟩ | hout
  -- a step of `queue_write`: its message has the property, wherever it goes
  · have hP : P e := hs.writing t e (congrArg Pc.message hp)
    obtain ⟨hacc, hret⟩ := stepWrite_carries hwrite
    refine hassemble (fun d hd => ?_) (fun d hd => ?_) fun r hr => ?_
    · rcases stepWrite_pc hwrite with hpc | ⟨p', hpc⟩ <;> rw [hpc] at hd <;> cases hd
      exact hP
    · rcases hacc with hacc | hacc <;> rw [hacc] at hd
      · exact hs.stored d hd
      · rcases List.mem_append.mp hd with hd | hd
        · exact hs.stored d hd
        · rwa [List.mem_singleton.mp hd]
    · rcases hret with hret | ⟨ret, hret⟩ <;> rw [hret] at hr
      · exact hs.answered r hr
      · rcases List.mem_append.mp hr with hr | hr
        · exact hs.answered r hr
        · exact ⟨e, hP, by rw [List.mem_singleton.mp hr]⟩
  -- ?_) (hout.accepted ==> any other step: at most a new call brings a message
  · refine hassemble (fun e he => ?_) (hout.accepted ▸ hs.stored) (hout.writeReturns ▸ hs.answered)
    rcases hout.message e he with hold | ⟨timed, rfl⟩
    · exact hs.writing t e hold
    · exact hl

omit [DecidableEq ι] in
theorem carried_queueCreate (P : Entry → Prop) (cap : ℕ) : Carried P (queueCreate ι cap) where
  writing := by rintro _ _ ⟨⟩
  stored := by rintro _ ⟨⟩
  answered := by rintro _ ⟨⟩

/-- **Run.**  Whatever holds of all messages that are sent holds of all that are stored. -/
theorem carried_run {P : Entry → Prop} (hr : Run step (queueCreate ι cap) h s)
    (hcarries : ∀ x ∈ h, Carries P x.2) : Carried P s :=
  hr.invariant (fun _ l => Carries P l) (Carried P) (carried_queueCreate P cap)
    (fun _ _ _ hs hl hstep => carried_step hs hl hstep) hcarries

/-- **Producers.**  In every run with messages of less than 2 GiB, what has been stored is what has
    been confirmed and what is about to be, each message as often as it has been sent. -/
theorem confirmed_balanced (hr : Run step (queueCreate ι cap) h s)
    (hlen : ∀ x ∈ h, Carries (fun e => e.buf.length < 2 ^ 31) x.2) :
    Balanced (s.q.accepted.map Entry.buf) s.q.confirmed fun t => (s.pc t).filed := by
  have hall : Carried (fun e => e.buf.length < 2 ^ 31) s ∧ Sent cap s ∧
      Balanced (s.q.accepted.map Entry.buf) s.q.confirmed fun t => (s.pc t).filed := by
    refine hr.invariant (fun _ l => Carries (fun e => e.buf.length < 2 ^ 31) l)
      (fun s => Carried (fun e => e.buf.length < 2 ^ 31) s ∧ Sent cap s ∧
        Balanced (s.q.accepted.map Entry.buf) s.q.confirmed fun t => (s.pc t).filed) ?_ ?_ hlen
    · exact ⟨carried_queueCreate _ cap, sent_queueCreate cap, balanced_start fun _ => rfl⟩
    · rintro s l s' ⟨hcarried, hsent, hbal⟩ hl hstep
      refine ⟨carried_step hcarried hl hstep, sent_step hsent hstep, ?_⟩
      obtain ⟨o, ho, rfl⟩ := Option.map_eq_some_iff.mp hstep
      rw [under_way_apply Pc.filed_signalled]
      exact hbal.turn (outcome_turn_write (hcarried.writing l.1) (hsent.sends l.1) ho)
  exact hall.2.2

/-- **Consumers.**  In every run what has been read is what has been returned and what is about to
    be. -/
theorem returned_balanced (hr : Run step (queueCreate ι cap) h s) :
    Balanced s.q.completed s.q.returned fun t => (s.pc t).inHand := by
  refine hr.invariant (fun _ _ => True)
    (fun s => Balanced s.q.completed s.q.returned fun t => (s.pc t).inHand) ?_ ?_
    fun _ _ => trivial
  · exact balanced_start fun _ => rfl
  · intro s l s' hbal _ hstep
    obtain ⟨o, ho, rfl⟩ := Option.map_eq_some_iff.mp hstep
    rw [under_way_apply Pc.inHand_signalled]
    exact hbal.turn (outcome_turn_read ho)

/-- Only `x` calls `queue_read`. -/
def ReadBy (x : ι) : ι × Act → Prop
  | (t, .call (.read _)) => t = x
  | _ => True

/-- No other thread than `x` is in `queue_read`, and what `x` has read is returned in order. -/
structure SoleReader (x : ι) (s : State ι) : Prop where
  outside : ∀ t, t ≠ x → (s.pc t).role ≠ .read
  serial : Serial x s.q.completed s.q.returned fun t => (s.pc t).inHand

/-- **Step.**  A thread that does not call `queue_read` returns nothing. -/
theorem soleReader_step {x : ι} {s' : State ι} {l : ι × Act} (hs : SoleReader x s)
    (hl : ReadBy x l) (h : step s l = some s') : SoleReader x s' := by
  obtain ⟨o, ho, rfl⟩ := Option.map_eq_some_iff.mp h
  obtain ⟨t, a⟩ := l
  have hrole : ∀ u, u ≠ x → ((s.apply t o).pc u).role ≠ .read := by
    refine forall_under_way Pc.role_signalled (P := fun u r => u ≠ x → r ≠ .read) hs.outside ?_
    intro ht hread
    -- a thread gets into `queue_read` by calling it
    rcases outcome_read_cases ho with ⟨timed, p, hp, -⟩ | hout
    · exact hs.outside t ht (congrArg Pc.role hp)
    · rcases hout.role hread with hold | ⟨timed, rfl⟩
      · exact hs.outside t ht hold
      · exact ht hl
  refine ⟨hrole, ?_⟩
  rw [under_way_apply Pc.inHand_signalled]
  refine hs.serial.turn (fun ht => ?_) (outcome_turn_read ho)
  simpa [State.apply] using Pc.inHand_of_role (hrole t ht)

/-- **One consumer.**  In every run in which one thread makes all calls of `queue_read`, these
    return the payloads in the order in which they are read, each once. -/
theorem soleReader_run {x : ι} (hr : Run step (queueCreate ι cap) h s)
    (hreader : ∀ p ∈ h, ReadBy x p.2) : SoleReader x s := by
  refine hr.invariant (fun _ l => ReadBy x l) (SoleReader x) ?_
    (fun _ _ _ hs hl hstep => soleReader_step hs hl hstep) hreader
  exact ⟨fun _ _ => by rintro ⟨⟩, serial_start x fun _ => rfl⟩

/-- Only `w` calls `queue_write`. -/
def WrittenBy (w : ι) : ι × Act → Prop
  | (t, .call (.write _ _)) => t = w
  | _ => True

/-- No other thread than `w` is in `queue_write`, and what `w` has stored is confirmed in order. -/
structure SoleWriter (w : ι) (s : State ι) : Prop where
  outside : ∀ t, t ≠ w → (s.pc t).message = none
  serial : Serial w (s.q.accepted.map Entry.buf) s.q.confirmed fun t => (s.pc t).filed

/-- **Step.**  A thread that does not call `queue_write` stores nothing. -/
theorem soleWriter_step {w : ι} {s' : State ι} {l : ι × Act} (hs : SoleWriter w s)
    (hlen : ∀ t e, (s.pc t).message = some e → e.buf.length < 2 ^ 31) (hsent : Sent cap s)
    (hl : WrittenBy w l) (h : step s l = some s') : SoleWriter w s' := by
  obtain ⟨o, ho, rfl⟩ := Option.map_eq_some_iff.mp h
  obtain ⟨t, a⟩ := l
  -- nobody else gets a message: that would be a call of `queue_write`
  have hmessage : ∀ u, u ≠ w → ((s.apply t o).pc u).message = none := by
    refine forall_under_way Pc.message_signalled (P := fun u m => u ≠ w → m = none) hs.outside ?_
    intro ht
    refine Option.eq_none_iff_forall_ne_some.mpr fun e he => ?_
    rcases outcome_write_cases ho with ⟨e', timed, p, hp, -⟩ | hout
    · have hnone := hs.outside t ht
      rw [hp] at hnone
      cases hnone
    · rcases hout.message e he with hold | ⟨timed, rfl⟩
      · rw [hs.outside t ht] at hold
        cases hold
      · exact ht hl
  refine ⟨hmessage, ?_⟩
  rw [under_way_apply Pc.filed_signalled]
  refine hs.serial.turn (fun ht => ?_) (outcome_turn_write (hlen t) (hsent.sends t) ho)
  have hnone := hmessage t ht
  simp only [State.apply, Function.update_self] at hnone
  exact Pc.filed_of_message hnone

/-- **One producer.**  In every run in which one thread makes all calls of `queue_write`, with
    messages of less than 2 GiB, the messages are stored in the order in which they are
    confirmed. -/
theorem soleWriter_run {w : ι} (hr : Run step (queueCreate ι cap) h s)
    (hwriter : ∀ p ∈ h, WrittenBy w p.2)
    (hlen : ∀ p ∈ h, Carries (fun e => e.buf.length < 2 ^ 31) p.2) : SoleWriter w s := by
  have hall : Carried (fun e => e.buf.length < 2 ^ 31) s ∧ Sent cap s ∧ SoleWriter w s := by
    refine hr.invariant
      (fun _ l => WrittenBy w l ∧ Carries (fun e => e.buf.length < 2 ^ 31) l)
      (fun s => Carried (fun e => e.buf.length < 2 ^ 31) s ∧ Sent cap s ∧ SoleWriter w s) ?_ ?_
      fun p hp => ⟨hwriter p hp, hlen p hp⟩
    · exact ⟨carried_queueCreate _ cap, sent_queueCreate cap, fun _ _ => rfl,
        serial_start w fun _ => rfl⟩
    · rintro s l s' ⟨hcarried, hsent, hs⟩ ⟨hl, hcarries⟩ hstep
      exact ⟨carried_step hcarried hcarries hstep, sent_step hsent hstep,
        soleWriter_step hs hcarried.writing hsent hl hstep⟩
  exact hall.2.2

end

/-! ### Reads without a payload -/

/-- Whoever gives up reports so by a negative number. -/
structure Declined (s : State ι) : Prop where
  excuse : ∀ t ret, (s.pc t).excuse = some ret → ret < 0
  returned : ∀ r ∈ s.q.readReturns, r.payload = none → r.ret < 0

/-- The steps of `queue_read` that give up. -/
theorem stepRead_declines {timed : Bool} {p : RPc} (h : stepRead q t timed p = some o) :
    (∀ ret, o.pc.excuse = some ret → ret < 0) ∧
      ∀ r ∈ o.q.readReturns, r ∈ q.readReturns ∨ r.payload ≠ none ∨
        (Pc.read timed p).excuse = some r.ret := by
  cases p
  case lock =>
    obtain ⟨hq, hpc, -⟩ := lockThen_some h
    rw [hq, hpc]
    exact ⟨by rintro _ ⟨⟩, fun r hr => Or.inl hr⟩
  case woken timedOut =>
    obtain ⟨hq, hpc, -⟩ := lockThen_some h
    rw [hq, hpc]
    exact ⟨by rintro _ ⟨⟩, fun r hr => Or.inl hr⟩
  -- ==> after a wait: the queue has been closed, or the time is over, or it goes on
  case awake timedOut =>
    simp only [stepRead, goto] at h
    split at h
    · cases h
      exact ⟨by rintro _ ⟨⟩; decide, fun r hr => Or.inl hr⟩
    · split at h <;> cases h
      · exact ⟨by rintro _ ⟨⟩; decide, fun r hr => Or.inl hr⟩
      · exact ⟨by rintro _ ⟨⟩, fun r hr => Or.inl hr⟩
  -- ==> the excuse is returned
  case bail ret =>
    cases h
    refine ⟨by rintro _ ⟨⟩, fun r hr => ?_⟩
    rcases List.mem_append.mp hr with hr | hr
    · exact Or.inl hr
    · rw [List.mem_singleton.mp hr]
      exact Or.inr (Or.inr rfl)
  -- ==> a payload is returned
  case ret hdr buf =>
    cases h
    refine ⟨by rintro _ ⟨⟩, fun r hr => ?_⟩
    rcases List.mem_append.mp hr with hr | hr
    · exact Or.inl hr
    · rw [List.mem_singleton.mp hr]
      exact Or.inr (Or.inl (by simp))
  all_goals
    simp only [stepRead, goto] at h
    repeat' split at h
    all_goals
      cases h
      try exact ⟨by rintro _ ⟨⟩, fun r hr => Or.inl hr⟩

section
variable [DecidableEq ι] {s : State ι} {h : List (State ι × ι × Act)}

/-- **Step.**  A `queue_read` gives up for two reasons. -/
theorem declined_step {s' : State ι} {l : ι × Act} (hs : Declined s) (h : step s l = some s') :
    Declined s' := by
  obtain ⟨o, ho, rfl⟩ := Option.map_eq_some_iff.mp h
  obtain ⟨t, a⟩ := l
  -- broadcasts change nothing for the other threads
  have hassemble : (∀ ret, o.pc.excuse = some ret → ret < 0) →
      (∀ r ∈ o.q.readReturns, r.payload = none → r.ret < 0) → Declined (s.apply t o) :=
    fun hpc hret => ⟨forall_under_way Pc.excuse_signalled
      (P := fun _ x => ∀ ret, x = some ret → ret < 0) hs.excuse hpc, hret⟩
  rcases outcome_read_cases ho with ⟨timed, p, hp, hread⟩ | hout
  · obtain ⟨hexcuse, hret⟩ := stepRead_declines hread
    refine hassemble hexcuse fun r hr hnone => ?_
    rcases hret r hr with hold | hsome | hbail
    · exact hs.returned r hold hnone
    · exact absurd hnone hsome
    · exact hs.excuse t r.ret (by rw [hp]; exact hbail)
  · refine hassemble (fun ret hret => ?_) (hout.readReturns ▸ hs.returned)
    rw [hout.excuse] at hret
    cases hret

/-- **Run.**  A `queue_read` that returns no payload returns a negative number. -/
theorem declined_run (hr : Run step (queueCreate ι cap) h s) : Declined s :=
  hr.invariant (fun _ _ => True) Declined ⟨by rintro _ _ ⟨⟩, by rintro _ ⟨⟩⟩
    (fun _ _ _ hs _ hstep => declined_step hs hstep) fun _ _ => trivial

end

/-! ### Rest -/

/-- The thread is outside the queue's functions, or sleeps in `queue_read`. -/
def Pc.rests : Pc → Bool
  | .idle | .read _ .asleep => true
  | _ => false

/-- A thread that rests has nothing in its hand, has filed nothing and shows nothing. -/
theorem Pc.rests_views {p : Pc} (h : p.rests = true) :
    p.rview = RView.none ∧ p.inHand = none ∧ p.filed = none := by
  unfold Pc.rests at h
  split at h
  · exact ⟨rfl, rfl, rfl⟩
  · exact ⟨rfl, rfl, rfl⟩
  · cases h

/-- **Nothing left behind.**  At rest, the used memory is zero exactly when every stored message has
    been read. -/
theorem Good.drained_iff {s : State ι} (hg : Good cap s) (hrest : ∀ t, (s.pc t).rests = true) :
    s.q.memUsageCurrent = 0 ↔ s.q.completed = s.q.accepted.map Entry.buf := by
  have hview : s.rview = RView.none := by
    unfold State.rview State.viewOf
    split
    · exact (Pc.rests_views (hrest _)).1
    · rfl
  have hok := hg.shows
  rw [hview] at hok
  obtain ⟨front, unread, base, hwin⟩ := hok
  have hread : front.map Entry.buf = s.q.completed := by simpa [RView.released?] using hwin.read
  rw [hwin.usage_eq, hwin.split, List.map_append, hread, eq_comm (a := s.q.completed),
    List.append_right_eq_self, List.map_eq_nil_iff, List.length_eq_zero_iff]
  constructor
  · intro hnil
    -- even the shortest message has a header
    refine List.eq_nil_iff_forall_not_mem.mpr fun e he => ?_
    have hlen := List.length_eq_zero_iff.mpr (List.flatMap_eq_nil_iff.mp hnil e he)
    rw [length_encode, headerSize] at hlen
    omega
  · rintro rfl
    rfl

/-! ### From producers to consumers -/

theorem Carries.mono {P Q : Entry → Prop} (himp : ∀ e, P e → Q e) {l : ι × Act}
    (h : Carries P l) : Carries Q l := by
  unfold Carries at h ⊢
  split
  · exact himp _ h
  · trivial

/-- **Exactly once.**  In every run of any number of producers and consumers, with messages of less
    than 2 GiB: when the threads have come to rest and no memory is in use, `queue_read` has
    returned exactly the messages for which `queue_write` has returned a length, each as often. -/
theorem queue_delivers_confirmed [DecidableEq ι] {s : State ι} {h : List (State ι × ι × Act)}
    (hcap : cap < 2 ^ 64) (hr : Run step (queueCreate ι cap) h s)
    (hlen : ∀ x ∈ h, Carries (fun e => e.buf.length < 2 ^ 31) x.2)
    (hrest : ∀ t, (s.pc t).rests = true) (hempty : s.q.memUsageCurrent = 0) :
    s.q.confirmed.Perm s.q.returned := by
  have hg := good_run hcap hr
  have hstored := (confirmed_balanced hr hlen).perm fun t => (Pc.rests_views (hrest t)).2.2
  have hread := (returned_balanced hr).perm fun t => (Pc.rests_views (hrest t)).2.1
  rw [(hg.drained_iff hrest).mp hempty] at hread
  exact hstored.symm.trans hread

instance (P : Entry → Prop) [DecidablePred P] : ∀ l : ι × Act, Decidable (Carries P l)
  | (_, .call (.write e _)) => inferInstanceAs (Decidable (P e))
  | (_, .call (.read _)) | (_, .call (.new _)) | (_, .call (.free _)) | (_, .call .destroy)
  | (_, .go) | (_, .wake _) => inferInstanceAs (Decidable True)

instance [DecidableEq ι] (x : ι) : ∀ l : ι × Act, Decidable (ReadBy x l)
  | (t, .call (.read _)) => inferInstanceAs (Decidable (t = x))
  | (_, .call (.write _ _)) | (_, .call (.new _)) | (_, .call (.free _)) | (_, .call .destroy)
  | (_, .go) | (_, .wake _) => inferInstanceAs (Decidable True)

instance [DecidableEq ι] (w : ι) : ∀ l : ι × Act, Decidable (WrittenBy w l)
  | (t, .call (.write _ _)) => inferInstanceAs (Decidable (t = w))
  | (_, .call (.read _)) | (_, .call (.new _)) | (_, .call (.free _)) | (_, .call .destroy)
  | (_, .go) | (_, .wake _) => inferInstanceAs (Decidable True)

/-- Two threads write a byte each, and then both read one. -/
def twoBytesOver : List (Bool × Act) :=
  (false, .call (.write ⟨[7], 0⟩ false)) :: List.replicate 31 (false, .go) ++
    (true, .call (.write ⟨[9], 0⟩ false)) :: List.replicate 31 (true, .go) ++
    (true, .call (.read true)) :: List.replicate 26 (true, .go) ++
    (false, .call (.read true)) :: List.replicate 26 (false, .go)

/-- Both messages of the two threads have been delivered when they have come to rest. -/
theorem queue_delivers_confirmed_two : ∃ h s, Run step (queueCreate Bool 64) h s ∧
    s.q.confirmed = [[7], [9]] ∧ s.q.confirmed.Perm s.q.returned := by
  obtain ⟨h, s, hr, hok, hend⟩ := exists_run_of_play step (queueCreate Bool 64)
    (fun _ l => decide (Carries (fun e => e.buf.length < 2 ^ 31) l))
    (fun s => s.q.confirmed = [[7], [9]] && s.q.memUsageCurrent = 0 && (s.pc false).rests
      && (s.pc true).rests) twoBytesOver (by decide +kernel)
  simp only [Bool.and_eq_true, decide_eq_true_eq] at hend
  obtain ⟨⟨⟨hconf, hempty⟩, hfalse⟩, htrue⟩ := hend
  refine ⟨h, s, hr, hconf, queue_delivers_confirmed (by decide) hr ?_ ?_ hempty⟩
  · exact fun x hx => of_decide_eq_true (hok x hx)
  · exact Bool.rec hfalse htrue

end Niuchacz.Queue
