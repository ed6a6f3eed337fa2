import Niuchacz.Art.Runs
import Niuchacz.SvcKernel
import Niuchacz.Database.Status
import Mathlib.Data.UInt

namespace Niuchacz.Statistics

open Art Lib.Keyed Lib.Refinement SvcKernel

/-!
# Statistics lists (`svc_statistics.c`)

A list of statistics is a radix tree from names to entries.  The entries are the callers': fields of
the structures that they count for.

* `statsAlloc`, `statsAllocBulk`, `statsFree`, `statsFind`, `statsUpdate`, `statsGetValue`,
  `i_statsmgrDumpSingleList` — the calls of `svc_statistics.c` on one list.
* `Ledger` — what the list is for: names, and for every entry what was reported since it was
  registered.
* `stats_ledger` — the calls answer as the ledger does, in any order and number.
* `stats_dump` — a dump writes every registered name once, with its value.
* `stats_bulk` — how far a table gets registered; `stats_startup` — the tables of the database and
  of the command manager get registered whole.
-/

variable {P : Type} [DecidableEq P]

/-! ### The calls -/

def STATS_FLAGS_TYPE_SUM : Int32 := 1

def STATS_FLAGS_TYPE_LAST : Int32 := 2

/-- `stats_entry_t` -/
structure Entry where
  flags : Int32
  value : UInt64

/-- `stats_list_t`, with the entries that pointers `P` lead to. -/
structure Stats (P : Type) where
  tree : Art.Tree P
  entries : P → Entry

/-- `statsAlloc`: the entry is reset before the tree is asked. -/
def statsAlloc (s : Stats P) (statsName : CString) (flags : Int32) (p_entry : P) :
    Stats P × KStatus :=
  let r := artInsert s.tree statsName.toKey p_entry
  (⟨r.1, Function.update s.entries p_entry ⟨flags, 0⟩⟩,
    if r.2 = some p_entry then .unsuccess else .success)

/-- `stats_bulk_init_t` -/
structure BulkInit (P : Type) where
  key : CString
  flags : Int32
  ptr : P

/-- `statsAllocBulk`: up to the first error. -/
def statsAllocBulk (s : Stats P) : List (BulkInit P) → Stats P × KStatus
  | [] => (s, .success)
  | e :: array =>
    let r := statsAlloc s e.key e.flags e.ptr
    if r.2 ≠ .success then r else statsAllocBulk r.1 array

def statsFree (s : Stats P) (statsName : CString) : Stats P :=
  { s with tree := (artDelete s.tree statsName.toKey).1 }

def statsFind (s : Stats P) (statsName : CString) : Option P :=
  artSearch s.tree statsName.toKey

/-- `statsUpdate` of one entry, with its return value.  Both stores are atomic. -/
def Entry.update (e : Entry) (value : UInt64) : Entry × UInt64 :=
  if e.flags = STATS_FLAGS_TYPE_SUM then ({ e with value := e.value + value }, e.value + value)
  else if e.flags = STATS_FLAGS_TYPE_LAST then ({ e with value := value }, value)
  else (e, 0)

def statsUpdate (s : Stats P) (p_entry : P) (value : UInt64) : Stats P × UInt64 :=
  let r := (s.entries p_entry).update value
  ({ s with entries := Function.update s.entries p_entry r.1 }, r.2)

def statsGetValue (s : Stats P) (p_entry : P) : UInt64 :=
  (s.entries p_entry).value

/-- A line of the dump: flags, value and name of an entry. -/
abbrev Line := Int32 × UInt64 × List UInt8

/-- `i_statsmgrDumpSingleListCallback` -/
def i_statsmgrDumpSingleListCallback (entries : P → Entry) (log : List Line) (key : List UInt8)
    (value : P) : List Line × Int32 :=
  (log ++ [((entries value).flags, (entries value).value, key)], 0)

/-- `i_statsmgrDumpSingleList`: the number in the head line, the lines and the result. -/
def i_statsmgrDumpSingleList (s : Stats P) : UInt64 × List Line × KStatus :=
  let r := artIter s.tree (i_statsmgrDumpSingleListCallback s.entries) []
  (s.tree.size, r.1, if r.2 ≠ 0 then .unsuccess else .success)

/-- The update of an entry that the database makes is this one. -/
theorem update_eq_statsUpdate (t : Database.StatsType) (old value : UInt64) :
    (Entry.update ⟨match t with | .sum => 1 | .last => 2, old⟩ value).1.value
      = (Database.statsUpdate ⟨t, old⟩ value).value := by
  cases t <;> rfl

/-! ### The ledger -/

/-- What an entry is registered for, from which value on, and what was reported since. -/
structure Account where
  flags : Int32
  base : UInt64
  reports : List UInt64

/-- A sum adds all reports up, modulo the width of the counter; otherwise the last one counts, and
    an entry of unknown type stays as it is. -/
def Account.value (a : Account) : UInt64 :=
  if a.flags = STATS_FLAGS_TYPE_SUM then a.base + a.reports.sum
  else if a.flags = STATS_FLAGS_TYPE_LAST then a.reports.getLastD a.base
  else a.base

structure Ledger (P : Type) where
  names : List UInt8 → Option P
  accounts : P → Account

/-- A call on a list of statistics. -/
inductive Call (P : Type) where
  | alloc (statsName : CString) (flags : Int32) (p_entry : P)
  | free (statsName : CString)
  | find (statsName : CString)
  | update (p_entry : P) (value : UInt64)
  | getValue (p_entry : P)

inductive Reply (P : Type) where
  | status (s : KStatus)
  | void
  | entry (p : Option P)
  | value (v : UInt64)

def statsStep (s : Stats P) : Call P → Stats P × Reply P
  | .alloc statsName flags p_entry =>
    ((statsAlloc s statsName flags p_entry).1, .status (statsAlloc s statsName flags p_entry).2)
  | .free statsName => (statsFree s statsName, .void)
  | .find statsName => (s, .entry (statsFind s statsName))
  | .update p_entry value =>
    ((statsUpdate s p_entry value).1, .value (statsUpdate s p_entry value).2)
  | .getValue p_entry => (s, .value (statsGetValue s p_entry))

/-- A new account for the entry, whatever the result. -/
def Ledger.alloc (l : Ledger P) (name : List UInt8) (flags : Int32) (p : P) : Ledger P where
  names := Function.update l.names name (some p)
  accounts := Function.update l.accounts p ⟨flags, 0, []⟩

def Ledger.report (l : Ledger P) (p : P) (value : UInt64) : Ledger P :=
  let a := l.accounts p
  { l with accounts := Function.update l.accounts p { a with reports := a.reports ++ [value] } }

/-- The calls on the ledger.  To register a name again is an error if it has that very entry, and
    replaces the entry otherwise. -/
def ledgerStep (l : Ledger P) : Call P → Ledger P × Reply P
  | .alloc statsName flags p_entry =>
    (l.alloc statsName.bytes flags p_entry,
      .status (if l.names statsName.bytes = some p_entry then .unsuccess else .success))
  | .free statsName => ({ l with names := Function.update l.names statsName.bytes none }, .void)
  | .find statsName => (l, .entry (l.names statsName.bytes))
  | .update p_entry value =>
    (l.report p_entry value,
      .value (if (l.accounts p_entry).flags = STATS_FLAGS_TYPE_SUM
          ∨ (l.accounts p_entry).flags = STATS_FLAGS_TYPE_LAST
        then ((l.report p_entry value).accounts p_entry).value else 0))
  | .getValue p_entry => (l, .value (l.accounts p_entry).value)

/-! ### Refinement -/

/-- The tree holds the names, and every entry what its account says. -/
structure Follows (s : Stats P) (l : Ledger P) : Prop where
  tree : Represents False s.tree l.names
  entries : ∀ p, s.entries p = ⟨(l.accounts p).flags, (l.accounts p).value⟩

theorem last_ne_sum : STATS_FLAGS_TYPE_LAST ≠ STATS_FLAGS_TYPE_SUM := by
  decide

/-- One more report is one update. -/
theorem value_report (a : Account) (v : UInt64) :
    Entry.update ⟨a.flags, a.value⟩ v
      = (⟨a.flags, { a with reports := a.reports ++ [v] : Account }.value⟩,
        if a.flags = STATS_FLAGS_TYPE_SUM ∨ a.flags = STATS_FLAGS_TYPE_LAST
        then { a with reports := a.reports ++ [v] : Account }.value else 0) := by
  unfold Entry.update Account.value
  by_cases hsum : a.flags = STATS_FLAGS_TYPE_SUM
  · simp [hsum, UInt64.add_assoc]
  · by_cases hlast : a.flags = STATS_FLAGS_TYPE_LAST
    · simp [hlast, last_ne_sum]
    · simp [hsum, hlast]

/-- `statsAlloc` registers the entry in the ledger too, and fails exactly if the name had that very
    entry. -/
theorem Follows.alloc {s : Stats P} {l : Ledger P} (h : Follows s l) (name : CString)
    (flags : Int32) (p : P) :
    Follows (statsAlloc s name flags p).1 (l.alloc name.bytes flags p)
      ∧ (statsAlloc s name flags p).2
        = if l.names name.bytes = some p then .unsuccess else .success := by
  obtain ⟨htree, hanswer⟩ := h.tree.artInsert name (fun hf => hf.elim) p
  refine ⟨⟨htree, fun q => ?_⟩, ?_⟩
  · simp only [statsAlloc, Ledger.alloc, Function.update_apply]
    split
    · simp [Account.value]
    · exact h.entries q
  · simp only [statsAlloc]
    rw [hanswer]

/-- One call keeps the list and the ledger together, with the same answer. -/
theorem simulates_ledger :
    Simulates statsStep (ledgerStep (P := P)) (fun _ => True) Follows where
  keeps := by
    intro s l c h _
    cases c with
    | alloc name flags p => exact (h.alloc name flags p).1
    | free name => exact ⟨(h.tree.artDelete name).1, h.entries⟩
    | find name => exact h
    | update p v =>
      refine ⟨h.tree, fun q => ?_⟩
      simp only [statsStep, statsUpdate, ledgerStep, Ledger.report, Function.update_apply]
      -- a sum adds the report, modulo `2 ^ 64`, and a last value is replaced by it
      rw [h.entries p, value_report]
      split
      · rfl
      · exact h.entries q
    | getValue p => exact h
  answer := by
    intro s l c h _
    cases c with
    | alloc name flags p =>
      simp only [statsStep, ledgerStep]
      rw [(h.alloc name flags p).2]
    | free name => rfl
    | find name =>
      simp only [statsStep, ledgerStep, statsFind]
      rw [h.tree.artSearch_eq]
    | update p v =>
      simp only [statsStep, ledgerStep, statsUpdate, Ledger.report, Function.update_self]
      rw [h.entries p, value_report]
    | getValue p =>
      simp only [statsStep, ledgerStep, statsGetValue]
      rw [h.entries p]

/-- A list that `statsCreate` has made, with memory as it is. -/
def created (entries : P → Entry) : Stats P :=
  ⟨artTreeInit, entries⟩

/-- No names, and no reports yet. -/
def opening (entries : P → Entry) : Ledger P :=
  ⟨fun _ => none, fun p => ⟨(entries p).flags, (entries p).value, []⟩⟩

omit [DecidableEq P] in
theorem follows_created (entries : P → Entry) : Follows (created entries) (opening entries) := by
  refine ⟨represents_artTreeInit, fun p => ?_⟩
  simp [created, opening, Account.value]

/-- So any number of calls have the same answers and end in corresponding states. -/
theorem follows_after (entries : P → Entry) (calls : List (Call P)) :
    answers statsStep (created entries) calls = answers ledgerStep (opening entries) calls
      ∧ Follows (final statsStep (created entries) calls)
        (final ledgerStep (opening entries) calls) :=
  simulates_ledger.run (follows_created entries) calls fun _ _ => trivial

/-- **Statistics.**  On a new list, whatever is registered, freed, looked up, reported and read, one
    call after the other: `statsFind` gives the entry last registered under that very name and not
    freed since, and a counter holds the sum of all reports since it was registered (or the last
    report). -/
theorem stats_ledger (entries : P → Entry) (calls : List (Call P)) :
    answers statsStep (created entries) calls = answers ledgerStep (opening entries) calls :=
  (follows_after entries calls).1

/-! ### Dump -/

omit [DecidableEq P] in
/-- The callback of the dump adds one line for each entry and never stops the iteration. -/
theorem visit_log (entries : P → Entry) (es : List (List UInt8 × P)) (log : List Line) :
    Node.visit (i_statsmgrDumpSingleListCallback entries) es log
      = (log ++ es.map fun e => ((entries e.2).flags, (entries e.2).value, e.1), 0) := by
  induction es generalizing log with
  | nil => simp [Node.visit, Node.iterLoop]
  | cons e es ih =>
    unfold Node.visit at ih ⊢
    simp only [Node.iterLoop]
    rw [if_neg (fun hne => hne rfl)]
    exact (ih _).trans (by simp [i_statsmgrDumpSingleListCallback])

/-- **Dump.**  After any calls a dump succeeds, counts the registered names in its head and writes
    a line for each of them: no name twice, and with what the ledger has for its entry. -/
theorem stats_dump (entries : P → Entry) (calls : List (Call P)) :
    ∃ lines : List Line,
      i_statsmgrDumpSingleList (final statsStep (created entries) calls)
        = (UInt64.ofNat lines.length, lines, .success)
      ∧ (lines.map fun line => line.2.2).Nodup
      ∧ ∀ flags value name, (flags, value, name) ∈ lines ↔
          ∃ p, (final ledgerStep (opening entries) calls).names name = some p
            ∧ flags = ((final ledgerStep (opening entries) calls).accounts p).flags
            ∧ value = ((final ledgerStep (opening entries) calls).accounts p).value := by
  have h := (follows_after entries calls).2
  generalize final statsStep (created entries) calls = s at h ⊢
  generalize final ledgerStep (opening entries) calls = l at h ⊢
  refine ⟨s.tree.leaves.map fun e => ((s.entries e.2).flags, (s.entries e.2).value, e.1),
    ?_, ?_, ?_⟩
  -- the number that is reported is `art_size`
  · unfold i_statsmgrDumpSingleList
    rw [artIter_eq, visit_log, h.tree.size, List.length_map]
    rfl
  · rw [List.map_map]
    exact h.tree.lists.distinct
  · intro flags value name
    rw [List.mem_map]
    constructor
    · rintro ⟨⟨k, p⟩, hmem, heq⟩
      simp only [h.entries p, Prod.mk.injEq] at heq
      obtain ⟨rfl, rfl, rfl⟩ := heq
      exact ⟨p, (h.tree.lists.mem_iff k p).mp hmem, rfl, rfl⟩
    · rintro ⟨p, hp, rfl, rfl⟩
      exact ⟨(name, p), (h.tree.lists.mem_iff name p).mpr hp, by simp only [h.entries p]⟩

/-! ### Tables -/

/-- `statsAllocBulk` up to the first name that has that very entry already. -/
theorem Follows.bulk {s : Stats P} {l : Ledger P} (h : Follows s l) (array : List (BulkInit P))
    (hdistinct : (array.map fun e => e.key.bytes).Nodup) :
    ∃ done rest, array = done ++ rest
      ∧ ((statsAllocBulk s array).2 = .success ∧ rest = []
        ∨ (statsAllocBulk s array).2 = .unsuccess
          ∧ ∃ e rest', rest = e :: rest' ∧ l.names e.key.bytes = some e.ptr)
      ∧ (∀ e ∈ done, l.names e.key.bytes ≠ some e.ptr)
      ∧ (∀ e ∈ done, statsFind (statsAllocBulk s array).1 e.key = some e.ptr)
      ∧ ∀ name : CString, (∀ e ∈ done, e.key.bytes ≠ name.bytes) →
          statsFind (statsAllocBulk s array).1 name = l.names name.bytes := by
  induction array generalizing s l with
  | nil =>
    refine ⟨[], [], rfl, Or.inl ⟨rfl, rfl⟩, by simp, by simp, fun name _ => ?_⟩
    exact h.tree.artSearch_eq name
  | cons e array ih =>
    obtain ⟨hnot, hdistinct'⟩ := List.nodup_cons.mp hdistinct
    obtain ⟨hstep, hstatus⟩ := h.alloc e.key e.flags e.ptr
    by_cases hbound : l.names e.key.bytes = some e.ptr
    · -- refused: the tree has the same names as before
      rw [if_pos hbound] at hstatus
      have hbulk : statsAllocBulk s (e :: array) = statsAlloc s e.key e.flags e.ptr := by
        simp only [statsAllocBulk]
        rw [if_pos (by rw [hstatus]; decide)]
      refine ⟨[], e :: array, rfl, Or.inr ⟨by rw [hbulk, hstatus], e, array, rfl, hbound⟩, by simp,
        by simp, fun name _ => ?_⟩
      have hsearch := hstep.tree.artSearch_eq name
      simp only [Ledger.alloc, ← hbound, Function.update_eq_self] at hsearch
      rw [hbulk]
      exact hsearch
    · rw [if_neg hbound] at hstatus
      have hbulk : statsAllocBulk s (e :: array)
          = statsAllocBulk (statsAlloc s e.key e.flags e.ptr).1 array := by
        simp only [statsAllocBulk]
        rw [if_neg (by rw [hstatus]; simp)]
      obtain ⟨done, rest, rfl, hresult, hnew, hfound, hother⟩ := ih hstep hdistinct'
      -- the other names of the table are not this one
      have hne : ∀ d ∈ done ++ rest, d.key.bytes ≠ e.key.bytes := by
        intro d hd heq
        exact hnot (List.mem_map.mpr ⟨d, hd, heq⟩)
      have hsame : ∀ d ∈ done ++ rest, (l.alloc e.key.bytes e.flags e.ptr).names d.key.bytes
          = l.names d.key.bytes := fun d hd => Function.update_of_ne (hne d hd) _ _
      rw [hbulk]
      refine ⟨e :: done, rest, rfl, ?_, ?_, ?_, fun name hname => ?_⟩
      · rcases hresult with hok | ⟨hfail, d, rest', rfl, hd⟩
        · exact Or.inl hok
        · exact Or.inr ⟨hfail, d, rest', rfl, by rw [← hd, hsame d (by simp)]⟩
      · intro d hd
        rcases List.mem_cons.mp hd with rfl | hd
        · exact hbound
        · rw [← hsame d (List.mem_append_left rest hd)]
          exact hnew d hd
      · intro d hd
        rcases List.mem_cons.mp hd with rfl | hd
        · rw [hother d.key fun d' hd' => hne d' (by simp [hd'])]
          exact Function.update_self ..
        · exact hfound d hd
      · rw [hother name fun d hd => hname d (List.mem_cons_of_mem e hd)]
        exact Function.update_of_ne (hname e List.mem_cons_self).symm _ _

/-- **Tables.**  On a list in any state `statsAllocBulk` registers the entries of a table of
    different names in turn.  It succeeds unless it meets a name that has that very entry already,
    and stops at the first such name: the names before it are registered and all others, those
    behind it among them, keep what they had. -/
theorem stats_bulk (entries : P → Entry) (calls : List (Call P)) (array : List (BulkInit P))
    (hdistinct : (array.map fun e => e.key.bytes).Nodup) :
    ∃ done rest, array = done ++ rest
      ∧ ((statsAllocBulk (final statsStep (created entries) calls) array).2 = .success ∧ rest = []
        ∨ (statsAllocBulk (final statsStep (created entries) calls) array).2 = .unsuccess
          ∧ ∃ e rest', rest = e :: rest'
            ∧ (final ledgerStep (opening entries) calls).names e.key.bytes = some e.ptr)
      ∧ (∀ e ∈ done,
          (final ledgerStep (opening entries) calls).names e.key.bytes ≠ some e.ptr)
      ∧ (∀ e ∈ done, statsFind
          (statsAllocBulk (final statsStep (created entries) calls) array).1 e.key = some e.ptr)
      ∧ ∀ name : CString, (∀ e ∈ done, e.key.bytes ≠ name.bytes) →
          statsFind (statsAllocBulk (final statsStep (created entries) calls) array).1 name
            = (final ledgerStep (opening entries) calls).names name.bytes :=
  (follows_after entries calls).2.bulk array hdistinct

/-- Three names, of which the first one begins the others. -/
def someTable : List (BulkInit ℕ) :=
  [⟨literal "db exec" (by decide), STATS_FLAGS_TYPE_SUM, 7⟩,
    ⟨literal "db exec fail" (by decide), STATS_FLAGS_TYPE_SUM, 8⟩,
    ⟨literal "db exec time" (by decide), STATS_FLAGS_TYPE_SUM, 9⟩]

/-- The second one has been registered before. -/
def someCalls : List (Call ℕ) :=
  [.alloc (literal "db exec fail" (by decide)) STATS_FLAGS_TYPE_SUM 8]

/-- Of these names, the second one is registered with its entry. -/
theorem names_someCalls : someTable.map (fun e =>
    (final ledgerStep (opening fun _ => ⟨0, 0⟩) someCalls).names e.key.bytes)
      = [none, some 8, none] := by
  simp only [someTable, someCalls, List.map_cons, List.map_nil, literal_bytes, final,
    List.foldl_cons, List.foldl_nil, ledgerStep, Ledger.alloc, opening, Function.update_apply]
  decide

/-- Then the first one is registered, the second one is refused, and the third one is not
    reached. -/
theorem stats_bulk_three :
    (statsAllocBulk (final statsStep (created fun _ => ⟨0, 0⟩) someCalls) someTable).2 = .unsuccess
    ∧ ∀ e ∈ someTable, statsFind (statsAllocBulk
        (final statsStep (created fun _ => ⟨0, 0⟩) someCalls) someTable).1 e.key
      = if e.ptr = 9 then none else some e.ptr := by
  have hdistinct : (someTable.map fun e => e.key.bytes).Nodup := by
    simp only [someTable, List.map_cons, List.map_nil, literal_bytes]
    decide
  obtain ⟨done, rest, htable, hresult, hnew, hfound, hother⟩ :=
    stats_bulk (fun _ => ⟨0, 0⟩) someCalls someTable hdistinct
  generalize statsAllocBulk _ someTable = r at hresult hfound hother ⊢
  have hnames := names_someCalls
  generalize (final ledgerStep (opening fun _ => ⟨0, 0⟩) someCalls).names = names at *
  simp only [someTable, List.map_cons, List.map_nil, List.cons.injEq, and_true] at hnames
  obtain ⟨hfirst, hsecond, hthird⟩ := hnames
  simp only [someTable, List.map_cons, List.map_nil, List.nodup_cons, List.mem_cons,
    List.not_mem_nil, or_false, not_or] at hdistinct
  obtain ⟨⟨h12, h13⟩, h23, -⟩ := hdistinct
  rcases done with _ | ⟨e, _ | ⟨e', done⟩⟩
  · -- the first name is new
    obtain ⟨-, rfl⟩ | ⟨-, e, rest', rfl, he⟩ := hresult
    · cases htable
    · cases htable
      rw [hfirst] at he
      cases he
  · cases htable
    obtain ⟨-, hrest⟩ | ⟨hfail, -⟩ := hresult
    · cases hrest
    · refine ⟨hfail, List.forall_mem_cons.mpr ⟨hfound _ List.mem_cons_self,
        List.forall_mem_cons.mpr ⟨?_, List.forall_mem_singleton.mpr ?_⟩⟩⟩
      · exact (hother _ (List.forall_mem_singleton.mpr h12)).trans hsecond
      · exact (hother _ (List.forall_mem_singleton.mpr h13)).trans hthird
  · -- the second name is not
    obtain ⟨-, rfl, -⟩ : _ ∧ _ = e' ∧ _ := by simpa [someTable] using htable
    exact absurd hsecond (hnew _ (List.mem_cons_of_mem _ List.mem_cons_self))

/-! ### The program's tables -/

/-- `s_stats` of `i_dbMount`, with the entries of the database by their number in the table. -/
def dbStats (ptr : ℕ → P) : List (BulkInit P) :=
  [⟨literal "db exec" (by decide), STATS_FLAGS_TYPE_SUM, ptr 0⟩,
    ⟨literal "db exec fail" (by decide), STATS_FLAGS_TYPE_SUM, ptr 1⟩,
    ⟨literal "db exec time" (by decide), STATS_FLAGS_TYPE_SUM, ptr 2⟩,
    ⟨literal "db prepare time" (by decide), STATS_FLAGS_TYPE_SUM, ptr 3⟩,
    ⟨literal "db bind time" (by decide), STATS_FLAGS_TYPE_SUM, ptr 4⟩,
    ⟨literal "db finalize time" (by decide), STATS_FLAGS_TYPE_SUM, ptr 5⟩,
    ⟨literal "db callback time" (by decide), STATS_FLAGS_TYPE_SUM, ptr 6⟩,
    ⟨literal "db txn time" (by decide), STATS_FLAGS_TYPE_SUM, ptr 7⟩,
    ⟨literal "db txn commit" (by decide), STATS_FLAGS_TYPE_SUM, ptr 8⟩,
    ⟨literal "db txn commit fail" (by decide), STATS_FLAGS_TYPE_SUM, ptr 9⟩,
    ⟨literal "db txn commit time" (by decide), STATS_FLAGS_TYPE_SUM, ptr 10⟩,
    ⟨literal "db txn rollback" (by decide), STATS_FLAGS_TYPE_SUM, ptr 11⟩,
    ⟨literal "db txn rollback fail" (by decide), STATS_FLAGS_TYPE_SUM, ptr 12⟩,
    ⟨literal "db txn rollback time" (by decide), STATS_FLAGS_TYPE_SUM, ptr 13⟩,
    ⟨literal "db open" (by decide), STATS_FLAGS_TYPE_SUM, ptr 14⟩,
    ⟨literal "db open time" (by decide), STATS_FLAGS_TYPE_SUM, ptr 15⟩]

/-- `s_stats_shortops` of `cmdmgrStart`. -/
def shortopsStats (ptr : ℕ → P) : List (BulkInit P) :=
  [⟨literal "ShortOps Entries Current" (by decide), STATS_FLAGS_TYPE_LAST, ptr 0⟩,
    ⟨literal "ShortOps Entries Max" (by decide), STATS_FLAGS_TYPE_LAST, ptr 1⟩,
    ⟨literal "ShortOps Memory Usage Current" (by decide), STATS_FLAGS_TYPE_LAST, ptr 2⟩,
    ⟨literal "ShortOps Memory Usage Max" (by decide), STATS_FLAGS_TYPE_LAST, ptr 3⟩,
    ⟨literal "ShortOps Memory Size Current" (by decide), STATS_FLAGS_TYPE_LAST, ptr 4⟩,
    ⟨literal "ShortOps Memory Size Max" (by decide), STATS_FLAGS_TYPE_LAST, ptr 5⟩]

/-- `s_stats_longops` of `cmdmgrStart`. -/
def longopsStats (ptr : ℕ → P) : List (BulkInit P) :=
  [⟨literal "LongOps Entries Current" (by decide), STATS_FLAGS_TYPE_LAST, ptr 0⟩,
    ⟨literal "LongOps Entries Max" (by decide), STATS_FLAGS_TYPE_LAST, ptr 1⟩,
    ⟨literal "LongOps Memory Usage Current" (by decide), STATS_FLAGS_TYPE_LAST, ptr 2⟩,
    ⟨literal "LongOps Memory Usage Max" (by decide), STATS_FLAGS_TYPE_LAST, ptr 3⟩,
    ⟨literal "LongOps Memory Size Current" (by decide), STATS_FLAGS_TYPE_LAST, ptr 4⟩,
    ⟨literal "LongOps Memory Size Max" (by decide), STATS_FLAGS_TYPE_LAST, ptr 5⟩]

/-- One call after another registers the two tables as one. -/
theorem statsAllocBulk_append (s : Stats P) (a b : List (BulkInit P)) :
    statsAllocBulk s (a ++ b) =
      if (statsAllocBulk s a).2 ≠ .success then statsAllocBulk s a
      else statsAllocBulk (statsAllocBulk s a).1 b := by
  induction a generalizing s with
  | nil => simp [statsAllocBulk]
  | cons e a ih =>
    simp only [List.cons_append, statsAllocBulk]
    by_cases hfail : (statsAlloc s e.key e.flags e.ptr).2 ≠ .success
    · simp only [if_pos hfail]
    · simp only [if_neg hfail]
      exact ih _

/-- On a new list every table of different names is registered. -/
theorem statsAllocBulk_created (entries : P → Entry) (array : List (BulkInit P))
    (hdistinct : (array.map fun e => e.key.bytes).Nodup) :
    (statsAllocBulk (created entries) array).2 = .success
      ∧ ∀ e ∈ array, statsFind (statsAllocBulk (created entries) array).1 e.key = some e.ptr := by
  obtain ⟨done, rest, rfl, hresult, -, hfound, -⟩ := (follows_created entries).bulk array hdistinct
  rcases hresult with ⟨hok, rfl⟩ | ⟨-, e, rest', -, hbound⟩
  · rw [List.append_nil] at hok hfound ⊢
    exact ⟨hok, hfound⟩
  · simp [opening] at hbound

/-- Registered whole, a table is registered part by part. -/
theorem statsAllocBulk_success_left {s : Stats P} {a b : List (BulkInit P)}
    (h : (statsAllocBulk s (a ++ b)).2 = .success) :
    (statsAllocBulk s a).2 = .success
      ∧ statsAllocBulk s (a ++ b) = statsAllocBulk (statsAllocBulk s a).1 b := by
  rw [statsAllocBulk_append] at h ⊢
  split at h
  case isTrue hfail => exact absurd h hfail
  case isFalse hok => exact ⟨not_not.mp hok, by rw [if_neg hok]⟩

/-- **Start.**  The tables of `i_dbMount` and of `cmdmgrStart` hold names of which some are prefixes
    of others, and long common ones; on new lists every one of them is registered, and is found
    again under its own name. -/
theorem stats_startup (entries : P → Entry) (db shortops longops : ℕ → P) :
    ((statsAllocBulk (created entries) (dbStats db)).2 = .success
      ∧ ∀ e ∈ dbStats db,
        statsFind (statsAllocBulk (created entries) (dbStats db)).1 e.key = some e.ptr)
    ∧ (statsAllocBulk (created entries) (shortopsStats shortops)).2 = .success
    ∧ (statsAllocBulk (statsAllocBulk (created entries) (shortopsStats shortops)).1
        (longopsStats longops)).2 = .success
    ∧ ∀ e ∈ shortopsStats shortops ++ longopsStats longops,
        statsFind (statsAllocBulk (statsAllocBulk (created entries) (shortopsStats shortops)).1
          (longopsStats longops)).1 e.key = some e.ptr := by
  have hdb : ((dbStats db).map fun e => e.key.bytes).Nodup := by
    simp only [dbStats, List.map_cons, List.map_nil, literal_bytes]
    decide
  have hcmd :
      ((shortopsStats shortops ++ longopsStats longops).map fun e => e.key.bytes).Nodup := by
    simp only [shortopsStats, longopsStats, List.cons_append, List.nil_append, List.map_cons,
      List.map_nil, literal_bytes]
    decide
  obtain ⟨hok, hfound⟩ := statsAllocBulk_created entries _ hcmd
  obtain ⟨hshort, happend⟩ := statsAllocBulk_success_left hok
  rw [happend] at hok hfound
  exact ⟨statsAllocBulk_created entries _ hdb, hshort, hok, hfound⟩

end Niuchacz.Statistics
