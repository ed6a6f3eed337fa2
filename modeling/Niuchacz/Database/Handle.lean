import Niuchacz.DoublyLinkedList.Sequential
import Niuchacz.SvcKernel

namespace Niuchacz.Database

open DoublyLinkedList Lib.Transition SvcKernel

/-!
# Opening and closing a database (`svc_kernel/database/database.c`)

A mounted database is an entry of the list `_DBList`.  `dbOpen` finds it, which counts a reference,
opens a connection and sets two pragmas; `dbClose` closes the connection and releases the reference.

* `State` — the list, the fields of the mounted databases, and the connections that have been
  opened and not closed.
* `dbOpen`, `dbClose` — the functions, with the answers of sqlite as arguments.
* `Balanced` — one connection and one further reference exactly while the database is open.
* `handle_balanced` — every call of a run leaves the database balanced, and an error leaves it as
  it was, exactly if it is never opened while it is open and sqlite never fails.

Logging and the statistics counters are left out.
-/

/-- `_flagsDBState`. -/
inductive DBState where
  | mounting | mounted | opened
  deriving DecidableEq

/-- The fields of `database_t` that opening and closing use; `none` is a null `_db`. -/
structure DatabaseT where
  db : Option ℕ
  flagsDBDropOnClose : Bool
  flagsDBState : DBState
  fileName : String
  deriving DecidableEq

/-- `_DBList`, the databases at its entries, and the world outside: which connections are open for
    each database, how many have ever been opened, and which files have been removed. -/
structure State where
  dbList : ListState
  dbs : Ptr → DatabaseT
  connections : Ptr → List ℕ
  connected : ℕ
  removed : List String

/-- `i_dbCheckState`. -/
def dbCheckState (s : State) (p_db : Option Ptr) (required_state : DBState) : Bool :=
  match p_db with
  | none => false
  | some p_db => (s.dbs p_db).flagsDBState = required_state

/-- What sqlite answers in a call of `dbOpen`: whether `sqlite3_open` succeeds, what it stores to
    `_db` if it does not, and the results of the two pragmas. -/
structure Answers where
  opens : Bool
  broken : Option ℕ
  journalMode : KStatus
  synchronous : KStatus
  deriving DecidableEq

/-- `sqlite3_open` succeeds, and the database is open. -/
def State.connect (s : State) (p_db : Ptr) : State :=
  { s with
    dbs := Function.update s.dbs p_db
      { s.dbs p_db with db := some s.connected, flagsDBState := .opened }
    connections := Function.update s.connections p_db (s.connections p_db ++ [s.connected])
    connected := s.connected + 1 }

/-- `dbOpen`: the state after the call, the result, and what is stored to `p_out_db`.  The
    argument `fuel` bounds the loop of `doublylinkedlistFind`. -/
def dbOpen (fuel : ℕ) (s : State) (shortname_8b : UInt64) (ans : Answers) :
    Option (State × KStatus × Option Ptr) := do
  let dbList ← doublylinkedlistFind fuel s.dbList shortname_8b
  let s := { s with dbList := dbList }
  match dbList.returned.getLast? with
  | some (some p_db) =>
      if !ans.opens then
        let s := { s with dbs := Function.update s.dbs p_db { s.dbs p_db with db := ans.broken } }
        some (s, .dbOpenError, some p_db)
      else if ans.journalMode ≠ .success then some (s.connect p_db, ans.journalMode, some p_db)
      else if ans.synchronous ≠ .success then some (s.connect p_db, ans.synchronous, some p_db)
      else some (s.connect p_db, .success, some p_db)
  | _ => some (s, .dbOpenError, none)

/-- `sqlite3_close`; nothing happens for a null pointer. -/
def closeConnection (connections : List ℕ) : Option ℕ → List ℕ
  | none => connections
  | some c => connections.erase c

/-- `dbClose`. -/
def dbClose (s : State) (p_db : Option Ptr) : State :=
  match p_db with
  | none => s
  | some p =>
      if !dbCheckState s (some p) .opened then s
      else
        { s with
          dbList := doublylinkedlistRelease s.dbList p
          dbs := Function.update s.dbs p { s.dbs p with db := none, flagsDBState := .mounted }
          connections :=
            Function.update s.connections p (closeConnection (s.connections p) (s.dbs p).db)
          removed :=
            if (s.dbs p).flagsDBDropOnClose then s.removed ++ [(s.dbs p).fileName] else s.removed }

/-! ### Calls for one database -/

/-- A call of `dbOpen` or `dbClose` for the database. -/
inductive Op where
  | dbOpen (fuel : ℕ) (ans : Answers)
  | dbClose
  deriving DecidableEq

/-- A call for the database with the short name `name` at `p`, and what it returns. -/
def call (name : UInt64) (p : Ptr) (s : State) : Op → Option (State × Option KStatus)
  | .dbOpen fuel ans => (dbOpen fuel s name ans).map fun r => (r.1, some r.2.1)
  | .dbClose => some (dbClose s (some p), none)

/-- One call as a step of a run. -/
def step (name : UInt64) (p : Ptr) (s : State) (op : Op) : Option State :=
  (call name p s op).map (·.1)

/-- The number of references to the database's entry. -/
def State.references (s : State) (p : Ptr) : UInt32 := s.dbList.heap.references p

/-- The database is open exactly if one connection is open for it, and it has one reference, and
    a second one while it is open. -/
def Balanced (p : Ptr) (s : State) : Prop :=
  ((s.dbs p).flagsDBState = .opened ↔ (s.connections p).length = 1) ∧
    s.references p = 1 + if (s.dbs p).flagsDBState = .opened then 1 else 0

/-- What is expected of a call: it leaves the database balanced, and if it is a `dbOpen` that
    returns an error, with the same state and number of references. -/
def Sound (name : UInt64) (p : Ptr) (s : State) (op : Op) : Prop :=
  ∀ s' ret, call name p s op = some (s', ret) → Balanced p s' ∧
    ∀ e, ret = some e → e ≠ .success →
      (s'.dbs p).flagsDBState = (s.dbs p).flagsDBState ∧ s'.references p = s.references p

/-- The call is not a `dbOpen` of an open database or one in which sqlite fails. -/
def Clean (p : Ptr) (s : State) : Op → Prop
  | .dbOpen _ ans => (s.dbs p).flagsDBState ≠ .opened ∧ ans.opens = true ∧
      ans.journalMode = .success ∧ ans.synchronous = .success
  | .dbClose => True

/-! ### The list entry -/

variable {name : UInt64} {p : Ptr} {s s' : State} {n : UInt32}

/-- The first entry of `_DBList` with the name is at `p` and has `n` references. -/
def Listed (name : UInt64) (p : Ptr) (n : UInt32) (s : State) : Prop :=
  ∃ a e, Represents s.dbList a ∧ a.active.find? (·.key = name) = some e ∧ e.ptr = p ∧
    e.references = n

/-- A counter does not decide which entry is found. -/
theorem find?_modifyReferences (q : Ptr) (g : UInt32 → UInt32) (l : List AEntry) :
    (modifyReferences q g l).find? (·.key = name) =
      (l.find? (·.key = name)).map
        fun e => if e.ptr = q then { e with references := g e.references } else e := by
  induction l with
  | nil => rfl
  | cons e l ih =>
    -- the key of the head does not change
    have hkey : (if e.ptr = q then { e with references := g e.references } else e).key = e.key := by
      split <;> rfl
    have hcons : modifyReferences q g (e :: l) =
      (if e.ptr = q then { e with references := g e.references } else e) ::
        modifyReferences q g l := rfl
    rw [hcons, List.find?_cons, List.find?_cons, hkey]
    by_cases hk : e.key = name
    · simp [hk]
    · simp only [hk, decide_false, ih]

theorem Listed.references_eq (h : Listed name p n s) : s.references p = n := by
  obtain ⟨a, e, hrep, hfind, rfl, rfl⟩ := h
  exact (hrep.rep.activeStored e (List.mem_of_find?_eq_some hfind)).references

/-- The list after `doublylinkedlistFind` has returned. -/
theorem Listed.find {fuel : ℕ} {dbList : ListState} (h : Listed name p n s)
    (hf : doublylinkedlistFind fuel s.dbList name = some dbList) :
    Listed name p (n + 1) { s with dbList := dbList } ∧
      dbList.returned.getLast? = some (some p) := by
  obtain ⟨a, e, hrep, hfind, rfl, rfl⟩ := h
  have hexec : exec fuel s.dbList (.find name) = some dbList := hf
  have hallowed : Allowed s.dbList (.find name) := trivial
  have href := refines_of_exec hrep hallowed hexec
  -- the abstract list finds the same entry and counts a reference for it
  have hstep : a.step (.find name) = a.take (some e) := by
    show a.take (a.active.find? (·.key = name)) = _
    rw [hfind]
  have hrep' := href.represents
  rw [hstep] at hrep'
  refine ⟨⟨_, { e with references := e.references + 1 }, hrep', ?_, rfl, rfl⟩, ?_⟩
  · show (modifyReferences e.ptr (· + 1) a.active).find? _ = _
    rw [find?_modifyReferences, hfind]
    simp
  · rw [hrep'.returned]
    show (a.returned ++ [some e.ptr]).getLast? = _
    simp

/-- The search for a database that is in the list ends. -/
theorem Listed.find_returns (h : Listed name p n s) :
    ∃ N, ∀ fuel, N < fuel → (doublylinkedlistFind fuel s.dbList name).isSome = true := by
  obtain ⟨a, e, hrep, -⟩ := h
  obtain ⟨s', -, hfind⟩ := find_refines hrep name
  exact ⟨_, fun fuel hfuel => by rw [hfind fuel hfuel]; rfl⟩

/-- The list after `doublylinkedlistRelease`. -/
theorem Listed.release (h : Listed name p n s) :
    Listed name p (n - 1) { s with dbList := doublylinkedlistRelease s.dbList p } := by
  obtain ⟨a, e, hrep, hfind, rfl, rfl⟩ := h
  refine ⟨_, { e with references := e.references - 1 }, (release_refines hrep e.ptr).represents,
    ?_, rfl, rfl⟩
  show (modifyReferences e.ptr (· - 1) a.active).find? _ = _
  rw [find?_modifyReferences, hfind]
  simp

theorem Listed.congr (h : Listed name p n s) (hl : s'.dbList = s.dbList) : Listed name p n s' := by
  unfold Listed
  rw [hl]
  exact h

/-! ### What the calls do -/

/-- `dbOpen` counts a reference; then it fails in `sqlite3_open`, or it opens the database and
    returns the result of the pragmas. -/
theorem dbOpen_cases {fuel : ℕ} {ans : Answers} {r : State × KStatus × Option Ptr}
    (h : Listed name p n s) (ho : dbOpen fuel s name ans = some r) :
    Listed name p (n + 1) r.1 ∧ r.2.2 = some p ∧
      ((ans.opens = false ∧ r.2.1 = .dbOpenError ∧
          (r.1.dbs p).flagsDBState = (s.dbs p).flagsDBState ∧
          r.1.connections = s.connections) ∨
        (ans.opens = true ∧ (r.1.dbs p).flagsDBState = .opened ∧ (r.1.dbs p).db = some s.connected ∧
          r.1.connections p = s.connections p ++ [s.connected] ∧
          (r.2.1 = .success ↔ ans.journalMode = .success ∧ ans.synchronous = .success))) := by
  obtain ⟨dbList, hfind, hrest⟩ := Option.bind_eq_some_iff.mp ho
  obtain ⟨hlisted, hlast⟩ := h.find hfind
  simp only [hlast] at hrest
  cases hopens : ans.opens with
  | false =>
    simp only [hopens, Bool.not_false, if_true, Option.some.injEq] at hrest
    rw [← hrest]
    exact ⟨hlisted.congr rfl, rfl, Or.inl ⟨rfl, rfl, by simp, rfl⟩⟩
  | true =>
    simp only [hopens, Bool.not_true, Bool.false_eq_true, if_false] at hrest
    -- whatever the pragmas answer, the connection is open
    have hstate : r.1 = State.connect { s with dbList := dbList } p ∧ r.2.2 = some p ∧
        (r.2.1 = .success ↔ ans.journalMode = .success ∧ ans.synchronous = .success) := by
      split at hrest
      · rename_i hj
        rw [← Option.some.inj hrest]
        exact ⟨rfl, rfl, fun hret => absurd hret hj, fun hret => absurd hret.1 hj⟩
      · rename_i hj
        split at hrest
        · rename_i hs
          rw [← Option.some.inj hrest]
          exact ⟨rfl, rfl, fun hret => absurd hret hs, fun hret => absurd hret.2 hs⟩
        · rename_i hs
          rw [← Option.some.inj hrest]
          exact ⟨rfl, rfl, fun _ => ⟨not_not.mp hj, not_not.mp hs⟩, fun _ => rfl⟩
    obtain ⟨hr, hout, hret⟩ := hstate
    refine ⟨by rw [hr]; exact hlisted.congr rfl, hout, Or.inr ⟨rfl, ?_, ?_, ?_, hret⟩⟩ <;>
      rw [hr] <;> simp [State.connect]

/-- `dbClose` of a database that is not open does nothing. -/
theorem dbClose_of_ne (h : (s.dbs p).flagsDBState ≠ .opened) : dbClose s (some p) = s := by
  simp [dbClose, dbCheckState, h]

/-- `dbClose` of an open database. -/
theorem dbClose_of_opened (h : Listed name p n s) (ho : (s.dbs p).flagsDBState = .opened) :
    Listed name p (n - 1) (dbClose s (some p)) ∧
      ((dbClose s (some p)).dbs p).flagsDBState = .mounted ∧
      (dbClose s (some p)).connections p = closeConnection (s.connections p) (s.dbs p).db := by
  have hcheck : dbCheckState s (some p) .opened = true := by simp [dbCheckState, ho]
  unfold dbClose
  simp only [hcheck, Bool.not_true, Bool.false_eq_true, if_false]
  exact ⟨h.release.congr rfl, by simp, by simp⟩

/-! ### Runs -/

/-- A database that has been mounted once and is not open. -/
def Mounted (name : UInt64) (p : Ptr) (s : State) : Prop :=
  Listed name p 1 s ∧ (s.dbs p).flagsDBState = .mounted ∧ s.connections p = []

/-- A database that has been mounted and then opened. -/
def Opened (name : UInt64) (p : Ptr) (s : State) : Prop :=
  Listed name p 2 s ∧ (s.dbs p).flagsDBState = .opened ∧
    ∃ c, (s.dbs p).db = some c ∧ s.connections p = [c]

/-- A mounted database is balanced, and so is an opened one. -/
theorem Mounted.balanced (h : Mounted name p s) : Balanced p s := by
  obtain ⟨hl, hst, hc⟩ := h
  unfold Balanced
  rw [hl.references_eq, hst, hc]
  decide

theorem Opened.balanced (h : Opened name p s) : Balanced p s := by
  obtain ⟨hl, hst, c, -, hc⟩ := h
  unfold Balanced
  rw [hl.references_eq, hst, hc]
  exact ⟨by simp, rfl⟩

/-- **Step.**  A clean call leads from a mounted or opened database to such a database, and it is
    sound. -/
theorem clean_step {op : Op} {ret : Option KStatus} (hst : Mounted name p s ∨ Opened name p s)
    (hclean : Clean p s op) (hc : call name p s op = some (s', ret)) :
    (Mounted name p s' ∨ Opened name p s') ∧ ∀ e, ret = some e → e = .success := by
  cases op with
  | dbClose =>
    cases hc
    refine ⟨Or.inl ?_, by rintro _ ⟨⟩⟩
    rcases hst with hm | ⟨hl, ho, c, hdb, hcon⟩
    · -- a database that is not open is left alone
      rwa [dbClose_of_ne (by rw [hm.2.1]; decide)]
    · obtain ⟨hl', hst', hcon'⟩ := dbClose_of_opened hl ho
      refine ⟨hl', hst', ?_⟩
      rw [hcon', hdb, hcon]
      simp [closeConnection]
  | dbOpen fuel ans =>
    obtain ⟨hne, hopens, hj, hsy⟩ := hclean
    rcases hst with ⟨hl, -, hcon⟩ | ⟨-, ho, -⟩
    · obtain ⟨r, hr, hrs⟩ := Option.map_eq_some_iff.mp hc
      cases hrs
      obtain ⟨hl', -, ⟨hno, -⟩ | ⟨-, hst', hdb', hcon', hret⟩⟩ := dbOpen_cases hl hr
      · rw [hopens] at hno
        exact absurd hno (by decide)
      · refine ⟨Or.inr ⟨hl', hst', s.connected, hdb', by rw [hcon', hcon]; rfl⟩, ?_⟩
        intro e he
        cases he
        exact hret.mpr ⟨hj, hsy⟩
    · exact absurd ho hne

/-- A `dbOpen` that is not clean is not sound. -/
theorem not_sound_of_not_clean {op : Op} {ret : Option KStatus}
    (hst : Mounted name p s ∨ Opened name p s) (hclean : ¬ Clean p s op)
    (hc : call name p s op = some (s', ret)) : ¬ Sound name p s op := by
  intro hsound
  cases op with
  | dbClose => exact hclean trivial
  | dbOpen fuel ans =>
    obtain ⟨⟨hiff, hrefs⟩, herr⟩ := hsound s' ret hc
    obtain ⟨r, hr, hrs⟩ := Option.map_eq_some_iff.mp hc
    cases hrs
    rcases hst with ⟨hl, hm, hcon⟩ | ⟨hl, ho, c, -, hcon⟩
    · obtain ⟨hl', -, ⟨hno, hret, hsame, -⟩ | ⟨hyes, hst', -, -, hret⟩⟩ := dbOpen_cases hl hr
      · -- `sqlite3_open` fails: the reference is not released
        rw [hl'.references_eq, hsame, hm] at hrefs
        exact absurd hrefs (by decide)
      · -- a pragma fails: the database stays open
        have hne : r.2.1 ≠ .success := by
          intro hsucc
          obtain ⟨hj, hsy⟩ := hret.mp hsucc
          exact hclean ⟨by rw [hm]; decide, hyes, hj, hsy⟩
        have hsame := (herr r.2.1 rfl hne).1
        rw [hst', hm] at hsame
        exact absurd hsame (by decide)
    · obtain ⟨hl', -, ⟨hno, hret, hsame, -⟩ | ⟨hyes, hst', -, hcon', -⟩⟩ := dbOpen_cases hl hr
      · rw [hl'.references_eq, hsame, ho] at hrefs
        exact absurd hrefs (by decide)
      · -- an open database is opened again: there are two connections
        have hone := hiff.mp hst'
        rw [hcon', hcon] at hone
        exact absurd hone (by simp)

/-- **Run.**  After clean calls the database is mounted or opened. -/
theorem clean_run {s₀ : State} {h : List (State × Op)} (hm : Mounted name p s₀)
    (hr : Run (step name p) s₀ h s) (hclean : ∀ x ∈ h, Clean p x.1 x.2) :
    Mounted name p s ∨ Opened name p s := by
  refine hr.invariant (Clean p) (fun s => Mounted name p s ∨ Opened name p s) (Or.inl hm) ?_ hclean
  intro s op s' hst hop hs
  obtain ⟨r, hr, rfl⟩ := Option.map_eq_some_iff.mp hs
  exact (clean_step hst hop hr).1

/-- On a mounted or opened database a clean call does what is expected. -/
theorem sound_of_clean {op : Op} (hst : Mounted name p s ∨ Opened name p s) (hop : Clean p s op) :
    Sound name p s op := by
  intro s' ret hc
  obtain ⟨hst', hret⟩ := clean_step hst hop hc
  refine ⟨?_, fun e he hne => absurd (hret e he) hne⟩
  rcases hst' with hm | ho
  · exact hm.balanced
  · exact ho.balanced

/-- The entry stays in the list, whatever the calls do. -/
theorem listed_run {s₀ : State} {h : List (State × Op)} (hm : Mounted name p s₀)
    (hr : Run (step name p) s₀ h s) : ∃ n, Listed name p n s := by
  refine hr.invariant (fun _ _ => True) (fun s => ∃ n, Listed name p n s) ⟨1, hm.1⟩ ?_
    (fun _ _ => trivial)
  rintro s op s' ⟨n, hl⟩ - hs
  obtain ⟨r, hc, rfl⟩ := Option.map_eq_some_iff.mp hs
  cases op with
  | dbClose =>
    cases hc
    by_cases ho : (s.dbs p).flagsDBState = .opened
    · exact ⟨_, (dbClose_of_opened hl ho).1⟩
    · show ∃ n, Listed name p n (dbClose s (some p))
      rw [dbClose_of_ne ho]
      exact ⟨n, hl⟩
  | dbOpen fuel ans =>
    obtain ⟨r', hr', rfl⟩ := Option.map_eq_some_iff.mp hc
    exact ⟨_, (dbOpen_cases hl hr').1⟩

/-- `dbOpen` returns if `doublylinkedlistFind` does. -/
theorem dbOpen_returns {fuel : ℕ} (hf : (doublylinkedlistFind fuel s.dbList name).isSome = true)
    (ans : Answers) : (step name p s (.dbOpen fuel ans)).isSome = true := by
  obtain ⟨dbList, hdbList⟩ := Option.isSome_iff_exists.mp hf
  simp only [step, call, dbOpen, hdbList, Option.bind_eq_bind, Option.bind_some, Option.isSome_map]
  repeat' split
  all_goals rfl

/-- **The life cycle of a database handle.**  In a run of calls for a database that has been
    mounted once, every call is sound exactly if every call is clean; and every call returns. -/
theorem handle_balanced {s₀ : State} {h : List (State × Op)} (hm : Mounted name p s₀)
    (hr : Run (step name p) s₀ h s) :
    ((∀ x ∈ h, Sound name p x.1 x.2) ↔ ∀ x ∈ h, Clean p x.1 x.2) ∧
    ∃ N, ∀ ans fuel, N < fuel → (step name p s (.dbOpen fuel ans)).isSome = true := by
  constructor
  · induction hr with
    | nil => simp
    | @snoc h s s' op hr hs ih =>
      -- after clean calls the database is mounted or opened, where the two notions agree
      have hlast : (∀ x ∈ h, Clean p x.1 x.2) → (Sound name p s op ↔ Clean p s op) := by
        intro hclean
        have hst := clean_run hm hr hclean
        obtain ⟨r, hc, -⟩ := Option.map_eq_some_iff.mp hs
        refine ⟨?_, sound_of_clean hst⟩
        intro hsound
        by_contra hno
        exact not_sound_of_not_clean hst hno hc hsound
      constructor
      · intro hall
        have hclean := ih.mp fun x hx => hall x (by simp [hx])
        intro x hx
        rcases List.mem_append.mp hx with hx | hx
        · exact hclean x hx
        · rw [List.mem_singleton] at hx
          rw [hx]
          exact (hlast hclean).mp (hall (s, op) (by simp))
      · intro hall
        have hclean : ∀ x ∈ h, Clean p x.1 x.2 := fun x hx => hall x (by simp [hx])
        intro x hx
        rcases List.mem_append.mp hx with hx | hx
        · exact ih.mpr hclean x hx
        · rw [List.mem_singleton] at hx
          rw [hx]
          exact (hlast hclean).mpr (hall (s, op) (by simp))
  · obtain ⟨n, hl⟩ := listed_run hm hr
    obtain ⟨N, hN⟩ := hl.find_returns
    exact ⟨N, fun ans fuel hfuel => dbOpen_returns (hN fuel hfuel) ans⟩

/-! ### One database -/

/-- `_DBList` with one entry, and a database that is mounted there. -/
def oneMounted : State where
  dbList := (doublylinkedlistAdd (doublylinkedlistAlloc Heap.zero 64) 7 [] (some 1000)).getD
    (doublylinkedlistAlloc Heap.zero 64)
  dbs := fun _ => ⟨none, false, .mounted, "live.db"⟩
  connections := fun _ => []
  connected := 0
  removed := []

theorem mounted_oneMounted : Mounted 7 1000 oneMounted := by
  have hallowed : Allowed (doublylinkedlistAlloc Heap.zero 64) (.add 7 [] (some 1000)) :=
    ⟨rfl, by decide, by decide⟩
  obtain ⟨l, href, hadd⟩ := add_refines (represents_alloc Heap.zero 64) hallowed
  have hlist : oneMounted.dbList = l := by
    unfold oneMounted
    simp only [hadd, Option.getD_some]
  have hrep : Represents oneMounted.dbList (AList.empty.step (.add 7 [] (some 1000))) := by
    rw [hlist]
    exact href.represents
  exact ⟨⟨_, ⟨1000, 7, 1, []⟩, hrep, rfl, rfl, rfl⟩, rfl, rfl⟩

/-- The database is opened and closed, and sqlite does not fail. -/
theorem handle_balanced_open_close :
    ∃ h s, Run (step 7 1000) oneMounted h s ∧ h.length = 2 ∧ ∀ x ∈ h, Sound 7 1000 x.1 x.2 := by
  have hopen : (step 7 1000 oneMounted (.dbOpen 3 ⟨true, none, .success, .success⟩)).isSome := by
    decide +kernel
  obtain ⟨s, hs⟩ := Option.isSome_iff_exists.mp hopen
  have hr := (Run.single hs).snoc (show step 7 1000 s .dbClose = some _ from rfl)
  refine ⟨_, _, hr, rfl, (handle_balanced mounted_oneMounted hr).1.mpr ?_⟩
  intro x hx
  simp only [List.cons_append, List.nil_append, List.mem_cons, List.not_mem_nil, or_false] at hx
  rcases hx with rfl | rfl
  · exact ⟨by decide, rfl, rfl, rfl⟩
  · trivial

/-- Three ways to lose the balance: `sqlite3_open` fails and the reference stays; a pragma fails,
    `dbOpen` returns an error and the database stays open; the database is opened twice and
    closed once, and a connection and a reference stay. -/
theorem handle_unbalanced : Mounted 7 1000 oneMounted ∧
    (∃ s, call 7 1000 oneMounted (.dbOpen 3 ⟨false, none, .success, .success⟩) =
        some (s, some .dbOpenError) ∧
      (s.dbs 1000).flagsDBState = .mounted ∧ s.references 1000 = 2) ∧
    (∃ s, call 7 1000 oneMounted (.dbOpen 3 ⟨true, none, .dbExecError, .success⟩) =
        some (s, some .dbExecError) ∧
      (s.dbs 1000).flagsDBState = .opened ∧ s.references 1000 = 2) ∧
    (∃ s₁ s₂ s₃, call 7 1000 oneMounted (.dbOpen 3 ⟨true, none, .success, .success⟩) =
        some (s₁, some .success) ∧
      call 7 1000 s₁ (.dbOpen 3 ⟨true, none, .success, .success⟩) = some (s₂, some .success) ∧
      call 7 1000 s₂ .dbClose = some (s₃, none) ∧
      (s₃.dbs 1000).flagsDBState = .mounted ∧ s₃.references 1000 = 2 ∧
      (s₃.connections 1000).length = 1) :=
  ⟨mounted_oneMounted, ⟨_, rfl, by decide +kernel, by decide +kernel⟩,
    ⟨_, rfl, by decide +kernel, by decide +kernel⟩,
    ⟨_, _, _, rfl, rfl, rfl, by decide +kernel, by decide +kernel, by decide +kernel⟩⟩

end Niuchacz.Database
