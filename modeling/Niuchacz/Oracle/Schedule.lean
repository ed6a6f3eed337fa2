import Mathlib.Data.List.Basic
import Mathlib.Data.List.Nodup
import Mathlib.Algebra.Order.BigOperators.Group.List
import Mathlib.Algebra.Order.Ring.Int
import Mathlib.Tactic.Ring
import Niuchacz.Oracle.Model

namespace Niuchacz.Oracle

/-!
# The download schedule (`PACKAGE_BODIES/PKG_DOWNLOAD_FILES.sql`)

`p_job_producer_df_handler` enqueues a download for every date that is due, for each active row of
`download_files_def`.  Its loop goes on by the row's own offset and up to that offset after the
day, but then the row's next date is the next day, whatever the offset is.

* `pJobProducerDfHandler`, `producerRuns` — one run, and one run after another.
* `producer_ok_iff`, `producer_ok` — a run treats every row by itself; `producerRuns_ok_iff`,
  `datesOf_producerRuns` — and so do runs.
* `Daily.runs` — what runs enqueue for a row with an offset of one day.
* `schedule_exact` — when the dates that are enqueued are the dates of the schedule.

Dates are in seconds and intervals in microseconds.  An exception, whether of `to_char`, of
`p_enqueue` or of the options, leaves the handler, and nothing of the run is committed.
-/

/-! ### The producer -/

/-- Seconds of a day. -/
def day : ℤ := 86400

/-- Microseconds of a second. -/
def second : ℤ := 1000000

/-- `trunc(date, 'DD')`. -/
def trunc (date : ℤ) : ℤ := date / day * day

/-- How the database computes with dates: a time in microseconds as a date, which has no fractions
    of a second, and `to_char`, which raises an exception for a text that is no date format
    (ORA-01821). -/
structure Dates where
  seconds : ℤ → ℤ
  seconds_whole : ∀ n, seconds (n * second) = n
  toChar : ℤ → String → Except OraError (Option String)

/-- `date + interval`. -/
def Dates.add (D : Dates) (date interval : ℤ) : ℤ := D.seconds (date * second + interval)

/-- Why a run has no result: it is still running, or it has raised an exception. -/
inductive Stop where
  | running
  | raised (e : OraError)

/-- A download that is enqueued: the row, the date and the action. -/
structure Slot where
  downloadFileDefId : ℕ
  date : ℤ
  action : DownloadFilesAction

/-- What one run meets: the time at which it starts, and what each of its calls of `p_enqueue`
    meets. -/
structure Producing where
  now : ℤ
  enqueue : Slot → EnqueueEnv

/-- `l_sysdate`. -/
def Producing.sysdate (run : Producing) : ℤ := trunc run.now

/-- The download for one date; its URL is the date in the format that the column `url` has. -/
def slotOf (D : Dates) (c : DownloadFilesDef) (date : ℤ) : Except OraError Slot :=
  (D.toChar date c.url).map fun url =>
    ⟨c.downloadFileDefId, date, c.downloadFileDefId, url, none⟩

/-- The download for one date is made and enqueued. -/
def produce (D : Dates) (run : Producing) (c : DownloadFilesDef) (date : ℤ) :
    Except OraError Slot :=
  match slotOf D c date with
  | .error e => .error e
  | .ok slot =>
      match (run.enqueue slot).raised with
      | some e => .error e
      | none => .ok slot

/-- The `while` loop: the downloads that are enqueued. -/
def producerLoop (D : Dates) (run : Producing) (c : DownloadFilesDef) (bound offset : ℤ) :
    (fuel : ℕ) → (curr : ℤ) → Except Stop (List Slot)
  | 0, _ => .error .running
  | fuel + 1, curr =>
      if curr < bound then
        match produce D run c curr with
        | .error e => .error (.raised e)
        | .ok slot =>
            (producerLoop D run c bound offset fuel (D.add curr offset)).map (slot :: ·)
      else .ok []

/-- The body of the loop over the rows; a bound that is `NULL` is never reached. -/
def producerSlots (D : Dates) (fuel : ℕ) (run : Producing) (c : DownloadFilesDef) :
    Except Stop (List Slot) :=
  match jsonObject c.nextDownloadOptions with
  | .error e => .error (.raised e)
  | .ok options =>
      let curr := if options.skipOldFiles = some 1 then some run.sysdate else c.nextDownload
      match curr, c.nextDownloadOffset with
      | some curr, some offset => producerLoop D run c (D.add run.sysdate offset) offset fuel curr
      | _, _ => .ok []

/-- `update download_files_def set next_download = l_sysdate+1 where …`. -/
def setNextDownload (sysdate : ℤ) (id : ℕ) (c : DownloadFilesDef) : DownloadFilesDef :=
  if c.downloadFileDefId = id then { c with nextDownload := some (sysdate + day) } else c

/-- The loop over the rows of the cursor. -/
def producerRows (D : Dates) (fuel : ℕ) (run : Producing) :
    List DownloadFilesDef → List DownloadFilesDef →
      Except Stop (List DownloadFilesDef × List Slot)
  | [], table => .ok (table, [])
  | c :: cs, table => do
      let slots ← producerSlots D fuel run c
      let (table', slots') ← producerRows D fuel run cs
        (table.map (setNextDownload run.sysdate c.downloadFileDefId))
      return (table', slots ++ slots')

/-- The condition of the cursor. -/
def selected (sysdate : ℤ) (c : DownloadFilesDef) : Bool :=
  c.activeflag = some "Y" && c.nextDownload.any fun date => trunc date ≤ sysdate

/-- `p_job_producer_df_handler`. -/
def pJobProducerDfHandler (D : Dates) (fuel : ℕ) (run : Producing)
    (table : List DownloadFilesDef) : Except Stop (List DownloadFilesDef × List Slot) :=
  producerRows D fuel run (table.filter (selected run.sysdate)) table

/-- One run after another; the result is that of runs that all come to their end. -/
def producerRuns (D : Dates) (fuel : ℕ) : List Producing → List DownloadFilesDef →
    Except Stop (List DownloadFilesDef × List Slot)
  | [], table => .ok (table, [])
  | run :: runs, table => do
      let (table, slots) ← pJobProducerDfHandler D fuel run table
      let (table, slots') ← producerRuns D fuel runs table
      return (table, slots ++ slots')

/-- The dates that have been enqueued for a row. -/
def datesOf (id : ℕ) (slots : List Slot) : List ℤ :=
  (slots.filter (·.downloadFileDefId = id)).map (·.date)

/-- Slot by slot. -/
theorem datesOf_append (id : ℕ) (slots slots' : List Slot) :
    datesOf id (slots ++ slots') = datesOf id slots ++ datesOf id slots' := by
  simp [datesOf]

variable {D : Dates} {fuel : ℕ} {table : List DownloadFilesDef} {c : DownloadFilesDef}
  {run : Producing}

/-! ### Every row by itself -/

/-- What is enqueued for a row and a date is a download of this row and date, whose URL `to_char`
    has made. -/
theorem produce_ok {date : ℤ} {slot : Slot} (h : produce D run c date = .ok slot) :
    slot.downloadFileDefId = c.downloadFileDefId ∧ slot.date = date ∧
      D.toChar date c.url = .ok slot.action.url := by
  unfold produce slotOf at h
  cases hurl : D.toChar date c.url with
  | error e =>
    rw [hurl] at h
    cases h
  | ok url =>
    simp only [hurl, Except.map] at h
    split at h
    · cases h
    · cases h
      exact ⟨rfl, rfl, rfl⟩

/-- One turn of the loop: the bound has been reached, or a download is made and the loop goes on
    with the next date. -/
theorem producerLoop_cases {bound offset curr : ℤ} {slots : List Slot}
    (h : producerLoop D run c bound offset (fuel + 1) curr = .ok slots) :
    (bound ≤ curr ∧ slots = []) ∨ ∃ slot rest, curr < bound ∧ produce D run c curr = .ok slot ∧
      producerLoop D run c bound offset fuel (D.add curr offset) = .ok rest ∧
      slots = slot :: rest := by
  unfold producerLoop at h
  split at h
  -- one more download is due: it is produced, and the loop goes on
  · rename_i hlt
    split at h
    · cases h
    · rename_i slot hslot
      cases hrest : producerLoop D run c bound offset fuel (D.add curr offset) with
      | error e =>
        rw [hrest] at h
        cases h
      | ok rest =>
        rw [hrest] at h
        cases h
        exact Or.inr ⟨slot, rest, hlt, hslot, rfl, rfl⟩
  · rename_i hge
    cases h
    exact Or.inl ⟨not_lt.mp hge, rfl⟩

/-- All downloads of the loop have been made and enqueued. -/
theorem produce_of_loop {bound offset curr : ℤ} {slots : List Slot}
    (h : producerLoop D run c bound offset fuel curr = .ok slots) :
    ∀ slot ∈ slots, produce D run c slot.date = .ok slot := by
  induction fuel generalizing curr slots with
  | zero => cases h
  | succ fuel ih =>
    rcases producerLoop_cases h with ⟨-, rfl⟩ | ⟨slot, rest, -, hslot, hrest, rfl⟩
    · simp
    · intro slot' hmem
      rcases List.mem_cons.mp hmem with rfl | hmem
      · rw [(produce_ok hslot).2.1]
        exact hslot
      · exact ih hrest slot' hmem

/-- The downloads of a row have its id. -/
theorem id_of_producerSlots {slots : List Slot} (h : producerSlots D fuel run c = .ok slots) :
    ∀ slot ∈ slots, slot.downloadFileDefId = c.downloadFileDefId := by
  unfold producerSlots at h
  split at h
  · cases h
  · dsimp only at h
    split at h
    · exact fun slot hslot => (produce_ok (produce_of_loop h slot hslot)).1
    · cases h
      simp

/-- The downloads of a row, if there is no exception. -/
def rowSlots (D : Dates) (fuel : ℕ) (run : Producing) (c : DownloadFilesDef) : List Slot :=
  (producerSlots D fuel run c).toOption.getD []

theorem rowSlots_eq {slots : List Slot} (h : producerSlots D fuel run c = .ok slots) :
    rowSlots D fuel run c = slots := by
  rw [rowSlots, h]
  rfl

/-- The loop over the rows ends, if that of every row does. -/
theorem producerRows_of_ok {cs : List DownloadFilesDef}
    (h : ∀ c ∈ cs, ∃ slots, producerSlots D fuel run c = .ok slots)
    (table : List DownloadFilesDef) :
    producerRows D fuel run cs table = .ok
      (table.map fun d => if d.downloadFileDefId ∈ cs.map (·.downloadFileDefId) then
          { d with nextDownload := some (run.sysdate + day) } else d,
        cs.flatMap fun c => rowSlots D fuel run c) := by
  induction cs generalizing table with
  | nil => simp [producerRows]
  | cons c cs ih =>
    obtain ⟨slots, hslots⟩ := h c List.mem_cons_self
    have hrest := ih (fun c' hc' => h c' (List.mem_cons_of_mem _ hc'))
      (table.map (setNextDownload run.sysdate c.downloadFileDefId))
    simp only [producerRows, hslots, hrest, List.flatMap_cons, rowSlots_eq hslots]
    refine congrArg Except.ok (Prod.ext ?_ rfl)
    rw [List.map_map]
    refine List.map_congr_left fun d _ => ?_
    -- a row that is updated again gets the same date
    by_cases hd : d.downloadFileDefId = c.downloadFileDefId
    · simp [setNextDownload, hd]
    · simp [setNextDownload, hd]

/-- And if it ends, that of every row has ended. -/
theorem producerSlots_of_ok {cs table : List DownloadFilesDef}
    {out : List DownloadFilesDef × List Slot}
    (h : producerRows D fuel run cs table = .ok out) :
    ∀ c ∈ cs, ∃ slots, producerSlots D fuel run c = .ok slots := by
  -- an exception in one row ends the whole loop
  induction cs generalizing table out with
  | nil => simp
  | cons c cs ih =>
    simp only [producerRows] at h
    cases hslots : producerSlots D fuel run c with
    | error e =>
      rw [hslots] at h
      cases h
    | ok slots =>
      rw [hslots] at h
      cases hrest : producerRows D fuel run cs
          (table.map (setNextDownload run.sysdate c.downloadFileDefId)) with
      | error e =>
        simp only [hrest] at h
        cases h
      | ok rest =>
        intro c' hc'
        rcases List.mem_cons.mp hc' with rfl | hc'
        · exact ⟨slots, hslots⟩
        · exact ih hrest c' hc'

/-- A row after a run. -/
def advance (sysdate : ℤ) (c : DownloadFilesDef) : DownloadFilesDef :=
  if selected sysdate c then { c with nextDownload := some (sysdate + day) } else c

/-- The dates that a run enqueues for a row. -/
def dueDates (D : Dates) (fuel : ℕ) (run : Producing) (c : DownloadFilesDef) : List ℤ :=
  if selected run.sysdate c then (rowSlots D fuel run c).map (·.date) else []

/-- The run comes to the end of this row. -/
def RowEnds (D : Dates) (fuel : ℕ) (run : Producing) (c : DownloadFilesDef) : Prop :=
  selected run.sysdate c = true → ∃ slots, producerSlots D fuel run c = .ok slots

/-- The dates in a list of slots, row by row. -/
theorem datesOf_flatMap (cs : List DownloadFilesDef) (id : ℕ) :
    datesOf id (cs.flatMap fun c => rowSlots D fuel run c) =
      (cs.filter (·.downloadFileDefId = id)).flatMap
        fun c => (rowSlots D fuel run c).map (·.date) := by
  -- all downloads of a row are of its own definition
  have hrow : ∀ c : DownloadFilesDef, datesOf id (rowSlots D fuel run c) =
      if c.downloadFileDefId = id then (rowSlots D fuel run c).map (·.date) else [] := by
    intro c
    have hid : ∀ slot ∈ rowSlots D fuel run c, slot.downloadFileDefId = c.downloadFileDefId := by
      cases hslots : producerSlots D fuel run c with
      | error e => simp [rowSlots, hslots, Except.toOption]
      | ok slots =>
        rw [rowSlots_eq hslots]
        exact id_of_producerSlots hslots
    unfold datesOf
    split
    · rename_i hc
      rw [List.filter_eq_self.mpr fun slot hslot => by simp [hid slot hslot, hc]]
    · rename_i hc
      rw [List.filter_eq_nil_iff.mpr fun slot hslot => by simp [hid slot hslot, hc]]
      rfl
  induction cs with
  | nil => rfl
  | cons c cs ih =>
    rw [List.flatMap_cons, datesOf_append, ih, hrow]
    by_cases hc : c.downloadFileDefId = id
    · simp [hc]
    · simp [hc]

/-- One row has the id of a row. -/
theorem filter_id_eq (hid : (table.map (·.downloadFileDefId)).Nodup) (hc : c ∈ table) :
    table.filter (·.downloadFileDefId = c.downloadFileDefId) = [c] := by
  induction table with
  | nil => cases hc
  | cons d table ih =>
    obtain ⟨hd, hid⟩ := List.nodup_cons.mp hid
    rcases List.mem_cons.mp hc with rfl | hc
    · have hnone : table.filter (·.downloadFileDefId = c.downloadFileDefId) = [] := by
        rw [List.filter_eq_nil_iff]
        intro x hx heq
        exact hd (List.mem_map.mpr ⟨x, hx, by simpa using heq⟩)
      simp [hnone]
    · have hne : d.downloadFileDefId ≠ c.downloadFileDefId := by
        intro heq
        exact hd (List.mem_map.mpr ⟨c, hc, heq.symm⟩)
      rw [List.filter_cons_of_neg (by simpa using hne), ih hid hc]

/-- A run comes to its end exactly if it does so for every row. -/
theorem producer_ok_iff (run : Producing) :
    (∃ out, pJobProducerDfHandler D fuel run table = .ok out) ↔
      ∀ c ∈ table, RowEnds D fuel run c := by
  constructor
  · rintro ⟨out, h⟩ c hc hsel
    exact producerSlots_of_ok h c (List.mem_filter.mpr ⟨hc, hsel⟩)
  · intro h
    refine ⟨_, producerRows_of_ok ?_ table⟩
    intro c hc
    obtain ⟨hc, hsel⟩ := List.mem_filter.mp hc
    exact h c hc hsel

/-- **One run.**  Then every row is advanced, and has the dates that are due for it. -/
theorem producer_ok (hid : (table.map (·.downloadFileDefId)).Nodup)
    {out : List DownloadFilesDef × List Slot}
    (h : pJobProducerDfHandler D fuel run table = .ok out) :
    out.1 = table.map (advance run.sysdate) ∧
      ∀ c ∈ table, datesOf c.downloadFileDefId out.2 = dueDates D fuel run c := by
  have hends := producerSlots_of_ok h
  rw [pJobProducerDfHandler, producerRows_of_ok hends] at h
  cases h
  have hinj := List.inj_on_of_nodup_map hid
  refine ⟨List.map_congr_left fun d hd => ?_, ?_⟩
  · -- a row has the id of a selected one exactly if it is selected
    have hiff : d.downloadFileDefId ∈
        (table.filter (selected run.sysdate)).map (·.downloadFileDefId) ↔
        selected run.sysdate d = true := by
      rw [List.mem_map]
      constructor
      · rintro ⟨c, hc, hcd⟩
        obtain ⟨hc, hsel⟩ := List.mem_filter.mp hc
        rwa [← hinj hc hd hcd]
      · exact fun hsel => ⟨d, List.mem_filter.mpr ⟨hd, hsel⟩, rfl⟩
    simp only [hiff, advance]
  · intro c hc
    have hfilter : (table.filter (selected run.sysdate)).filter
        (·.downloadFileDefId = c.downloadFileDefId) = [c].filter (selected run.sysdate) := by
      rw [← filter_id_eq hid hc, List.filter_filter, List.filter_filter]
      exact List.filter_congr fun d _ => Bool.and_comm ..
    rw [datesOf_flatMap, hfilter, dueDates]
    cases hsel : selected run.sysdate c with
    | true => simp [hsel]
    | false => simp [hsel]

/-! ### Whole runs, row by row -/

/-- The dates that runs enqueue for a row. -/
def rowRuns (D : Dates) (fuel : ℕ) : List Producing → DownloadFilesDef → List ℤ
  | [], _ => []
  | run :: runs, c => dueDates D fuel run c ++ rowRuns D fuel runs (advance run.sysdate c)

/-- All runs come to the end of a row. -/
def RowRunsEnd (D : Dates) (fuel : ℕ) : List Producing → DownloadFilesDef → Prop
  | [], _ => True
  | run :: runs, c => RowEnds D fuel run c ∧ RowRunsEnd D fuel runs (advance run.sysdate c)

/-- A run does not change the id of a row. -/
theorem id_advance (sysdate : ℤ) (c : DownloadFilesDef) :
    (advance sysdate c).downloadFileDefId = c.downloadFileDefId := by
  unfold advance
  split <;> rfl

/-- So the ids stay different. -/
theorem nodup_advance (hid : (table.map (·.downloadFileDefId)).Nodup) (sysdate : ℤ) :
    ((table.map (advance sysdate)).map (·.downloadFileDefId)).Nodup := by
  rw [List.map_map]
  simpa only [Function.comp_def, id_advance] using hid

/-- A first run without a result is all there is. -/
theorem producerRuns_cons_error {e : Stop}
    (h : pJobProducerDfHandler D fuel run table = .error e) (runs : List Producing) :
    producerRuns D fuel (run :: runs) table = .error e := by
  simp only [producerRuns, h]
  rfl

/-- After a run that has come to its end the others go on with the rows that it leaves. -/
theorem producerRuns_cons_ok (hid : (table.map (·.downloadFileDefId)).Nodup)
    {out : List DownloadFilesDef × List Slot}
    (h : pJobProducerDfHandler D fuel run table = .ok out) (runs : List Producing) :
    producerRuns D fuel (run :: runs) table =
      (producerRuns D fuel runs (table.map (advance run.sysdate))).map
        fun rest => (rest.1, out.2 ++ rest.2) := by
  rw [← (producer_ok hid h).1]
  simp only [producerRuns, h, Bind.bind, Except.bind]
  cases producerRuns D fuel runs out.1 <;> rfl

/-- **Runs come to their end** exactly if they do so for every row. -/
theorem producerRuns_ok_iff (hid : (table.map (·.downloadFileDefId)).Nodup)
    (runs : List Producing) :
    (∃ out, producerRuns D fuel runs table = .ok out) ↔
      ∀ c ∈ table, RowRunsEnd D fuel runs c := by
  induction runs generalizing table with
  | nil => simp [producerRuns, RowRunsEnd]
  | cons run runs ih =>
    cases hrun : pJobProducerDfHandler D fuel run table with
    | error e =>
      -- the first run stops at some row, and so do the runs
      have hstop : ¬ ∀ c ∈ table, RowEnds D fuel run c := by
        rw [← producer_ok_iff, hrun]
        rintro ⟨out, ⟨⟩⟩
      rw [producerRuns_cons_error hrun]
      constructor
      · rintro ⟨out, ⟨⟩⟩
      · exact fun h => absurd (fun c hc => (h c hc).1) hstop
    | ok out =>
      have hends := (producer_ok_iff run).mp ⟨out, hrun⟩
      have hrows : (∀ c ∈ table, RowRunsEnd D fuel (run :: runs) c) ↔
          ∀ c ∈ table.map (advance run.sysdate), RowRunsEnd D fuel runs c := by
        rw [List.forall_mem_map]
        exact ⟨fun h c hc => (h c hc).2, fun h c hc => ⟨hends c hc, h c hc⟩⟩
      rw [hrows, ← ih (nodup_advance hid run.sysdate), producerRuns_cons_ok hid hrun]
      cases producerRuns D fuel runs (table.map (advance run.sysdate)) with
      | error e => constructor <;> rintro ⟨out, ⟨⟩⟩
      | ok rest => exact ⟨fun _ => ⟨rest, rfl⟩, fun _ => ⟨_, rfl⟩⟩

/-- **What runs enqueue**: every row has its own dates. -/
theorem datesOf_producerRuns (hid : (table.map (·.downloadFileDefId)).Nodup)
    {runs : List Producing} {out : List DownloadFilesDef × List Slot}
    (h : producerRuns D fuel runs table = .ok out) :
    ∀ c ∈ table, datesOf c.downloadFileDefId out.2 = rowRuns D fuel runs c := by
  induction runs generalizing table out with
  | nil =>
    intro c _
    cases h
    rfl
  | cons run runs ih =>
    intro c hc
    cases hrun : pJobProducerDfHandler D fuel run table with
    | error e =>
      rw [producerRuns_cons_error hrun] at h
      cases h
    | ok out₁ =>
      rw [producerRuns_cons_ok hid hrun] at h
      cases hrest : producerRuns D fuel runs (table.map (advance run.sysdate)) with
      | error e =>
        rw [hrest] at h
        cases h
      | ok rest =>
        rw [hrest] at h
        cases h
        -- the dates of the first run, and those of the others for the row that it leaves
        have hrow := ih (nodup_advance hid run.sysdate) hrest _ (List.mem_map_of_mem hc)
        rw [id_advance] at hrow
        rw [datesOf_append, rowRuns, (producer_ok hid hrun).2 c hc, hrow]

/-! ### One row -/

/-- A row as the schedule wants it: a date, a positive offset, and no old files to be skipped. -/
structure Regular (c : DownloadFilesDef) : Prop where
  next : ∃ date, c.nextDownload = some date
  offset : ∃ offset, c.nextDownloadOffset = some offset ∧ 0 < offset
  options : ∃ options, jsonObject c.nextDownloadOptions = .ok options ∧
    options.skipOldFiles ≠ some 1

/-- Whole seconds are not rounded. -/
theorem Dates.add_whole (D : Dates) (date w : ℤ) : D.add date (w * second) = date + w := by
  rw [Dates.add, ← Int.add_mul, D.seconds_whole]

/-- For such a row the downloads are those of the loop. -/
theorem producerSlots_eq {x offset : ℤ} (hreg : Regular c) (hx : c.nextDownload = some x)
    (ho : c.nextDownloadOffset = some offset) (run : Producing) :
    producerSlots D fuel run c =
      producerLoop D run c (D.add run.sysdate offset) offset fuel x := by
  obtain ⟨options, hopt, hskip⟩ := hreg.options
  simp only [producerSlots, hopt, if_neg hskip, hx, ho]

/-- With whole seconds the loop goes from date to date up to the bound. -/
theorem mem_producerLoop {bound w curr : ℤ} {slots : List Slot} (hw : 0 < w)
    (h : producerLoop D run c bound (w * second) fuel curr = .ok slots) (x : ℤ) :
    x ∈ slots.map (·.date) ↔ ∃ k : ℕ, x = curr + k * w ∧ x < bound := by
  induction fuel generalizing curr slots with
  | zero => cases h
  | succ fuel ih =>
    rcases producerLoop_cases h with ⟨hge, rfl⟩ | ⟨slot, rest, hlt, hslot, hrest, rfl⟩
    · -- the bound has been passed, and later dates are beyond it as well
      simp only [List.map_nil, List.not_mem_nil, false_iff]
      rintro ⟨k, rfl, hk⟩
      have hpos : 0 ≤ (k : ℤ) * w := Int.mul_nonneg (Int.natCast_nonneg k) hw.le
      omega
    · rw [D.add_whole] at hrest
      rw [List.map_cons, List.mem_cons, ih hrest, (produce_ok hslot).2.1]
      constructor
      · rintro (rfl | ⟨k, rfl, hk⟩)
        · exact ⟨0, by simp, hlt⟩
        · exact ⟨k + 1, by push_cast; ring, hk⟩
      · rintro ⟨k, rfl, hk⟩
        cases k with
        | zero => exact Or.inl (by simp)
        | succ k => exact Or.inr ⟨k, by push_cast; ring, hk⟩

/-! ### Daily rows -/

/-- The midnights of the days from `a` to `b`, without `b`. -/
def daysFrom (a b : ℤ) : List ℤ := (List.range (b - a).toNat).map fun i : ℕ => (a + i) * day

/-- Which midnights these are. -/
theorem mem_daysFrom {a b x : ℤ} :
    x ∈ daysFrom a b ↔ ∃ k : ℕ, x = (a + k) * day ∧ a + k < b := by
  simp only [daysFrom, List.mem_map, List.mem_range]
  constructor
  · rintro ⟨k, hk, rfl⟩
    exact ⟨k, rfl, by omega⟩
  · rintro ⟨k, rfl, hk⟩
    exact ⟨k, by omega, rfl⟩

/-- They are different. -/
theorem nodup_daysFrom (a b : ℤ) : (daysFrom a b).Nodup := by
  refine List.Nodup.map ?_ List.nodup_range
  intro i j hij
  simp only [day] at hij
  omega

/-- Days that follow each other. -/
theorem daysFrom_append {a b e : ℤ} (hab : a ≤ b) (hbe : b ≤ e) :
    daysFrom a b ++ daysFrom b e = daysFrom a e := by
  have hlen : (e - a).toNat = (b - a).toNat + (e - b).toNat := by omega
  rw [daysFrom, daysFrom, daysFrom, hlen, List.range_add, List.map_append, List.map_map]
  refine congrArg _ (List.map_congr_left fun i _ => ?_)
  simp only [Function.comp_apply]
  refine congrArg (· * day) ?_
  omega

/-- No call of `p_enqueue` raises an exception in this run. -/
def Producing.Succeeds (run : Producing) : Prop := ∀ slot, (run.enqueue slot).raised = none

/-- Then a download is made for every date that `to_char` can write. -/
theorem Producing.Succeeds.produce (hrun : run.Succeeds) {date : ℤ}
    (hurl : ∃ url, D.toChar date c.url = .ok url) :
    ∃ slot, produce D run c date = .ok slot ∧ slot.date = date := by
  obtain ⟨url, hurl⟩ := hurl
  refine ⟨⟨c.downloadFileDefId, date, c.downloadFileDefId, url, none⟩, ?_, rfl⟩
  simp only [Oracle.produce, slotOf, hurl, Except.map, hrun _]

/-- The URL of the row is a format in which `to_char` can write the midnights from day `a` on. -/
def Formats (D : Dates) (a : ℤ) (c : DownloadFilesDef) : Prop :=
  ∀ k : ℕ, ∃ url, D.toChar ((a + k) * day) c.url = .ok url

/-- Then it is one from a later day on. -/
theorem Formats.later {a b : ℤ} (h : Formats D a c) (hab : a ≤ b) : Formats D b c := by
  intro k
  have hk := h ((b - a).toNat + k)
  rwa [show a + (((b - a).toNat + k : ℕ) : ℤ) = b + k by omega] at hk

/-- The loop of a daily row. -/
theorem producerLoop_daily (hrun : run.Succeeds) (n : ℕ) (hfuel : n < fuel) (a : ℤ)
    (hformats : Formats D a c) :
    ∃ slots, producerLoop D run c ((a + n) * day) (day * second) fuel (a * day) = .ok slots ∧
      slots.map (·.date) = daysFrom a (a + n) := by
  induction n generalizing fuel a with
  | zero =>
    cases fuel with
    | zero => omega
    | succ fuel => exact ⟨[], by simp [producerLoop], by simp [daysFrom]⟩
  | succ n ih =>
    cases fuel with
    | zero => omega
    | succ fuel =>
      have hlt : a * day < (a + (n + 1 : ℕ)) * day := by
        simp only [day]
        omega
      -- adding a day's interval to a whole day leads to the next one
      have hnext : D.add (a * day) (day * second) = (a + 1) * day := by
        rw [D.add_whole]
        ring
      have hbound : a + 1 + (n : ℤ) = a + (n + 1 : ℕ) := by
        push_cast
        ring
      obtain ⟨rest, hrest, hdates⟩ :=
        ih (show n < fuel by omega) (a + 1) (hformats.later (by omega))
      rw [hbound] at hrest hdates
      obtain ⟨slot, hslot, hdate⟩ := hrun.produce (D := D) (c := c) (by simpa using hformats 0)
      refine ⟨slot :: rest, ?_, ?_⟩
      · simp only [producerLoop, if_pos hlt, hslot, hnext, hrest, Except.map]
      · have hone : daysFrom a (a + 1) = [a * day] := by simp [daysFrom]
        rw [List.map_cons, hdate, hdates,
          ← daysFrom_append (a := a) (b := a + 1) (by omega) (by push_cast; omega), hone]
        rfl

/-- An active row with an offset of one day, next at the midnight of day `a`, and with a format
    for the midnights from there on. -/
structure Daily (D : Dates) (a : ℤ) (c : DownloadFilesDef) : Prop where
  active : c.activeflag = some "Y"
  next : c.nextDownload = some (a * day)
  offset : c.nextDownloadOffset = some (day * second)
  options : ∃ options, jsonObject c.nextDownloadOptions = .ok options ∧
    options.skipOldFiles ≠ some 1
  formats : Formats D a c

/-- A daily row is as the schedule wants it. -/
theorem Daily.regular {a : ℤ} (h : Daily D a c) : Regular c :=
  ⟨⟨_, h.next⟩, ⟨_, h.offset, by decide⟩, h.options⟩

/-- It is selected from its day on. -/
theorem Daily.selected_iff {a : ℤ} (h : Daily D a c) (run : Producing) :
    selected run.sysdate c = true ↔ a ≤ run.now / day := by
  simp [selected, h.active, h.next, Producing.sysdate, trunc, day]

/-- **One run of a daily row**: the midnights up to that of the day. -/
theorem Daily.due {a : ℤ} (h : Daily D a c) (hrun : run.Succeeds)
    (hfuel : (run.now / day + 1 - a).toNat < fuel) :
    RowEnds D fuel run c ∧
      dueDates D fuel run c = daysFrom a (max a (run.now / day + 1)) ∧
      Daily D (max a (run.now / day + 1)) (advance run.sysdate c) := by
  by_cases hsel : a ≤ run.now / day
  · -- the loop ends a day after the midnight of the run, where the next run starts
    have hsel' := (h.selected_iff run).mpr hsel
    have hmax : max a (run.now / day + 1) = a + (run.now / day + 1 - a).toNat := by omega
    have hbound : D.add run.sysdate (day * second) =
        (a + (run.now / day + 1 - a).toNat) * day := by
      rw [D.add_whole, ← hmax, max_eq_right (by omega), Producing.sysdate, trunc]
      ring
    obtain ⟨slots, hslots, hdates⟩ := producerLoop_daily hrun _ hfuel a h.formats
    rw [← hbound, ← producerSlots_eq h.regular h.next h.offset run] at hslots
    refine ⟨fun _ => ⟨_, hslots⟩, ?_, ?_⟩
    · rw [dueDates, if_pos hsel', rowSlots_eq hslots, hdates, hmax]
    · rw [advance, if_pos hsel', max_eq_right (by omega)]
      refine ⟨h.active, ?_, h.offset, h.options, h.formats.later (by omega)⟩
      simp only [Producing.sysdate, trunc]
      refine congrArg some ?_
      ring
  · -- the row is not due yet
    have hsel' : selected run.sysdate c = false := by
      rw [← Bool.not_eq_true, h.selected_iff]
      exact hsel
    rw [max_eq_left (by omega)]
    refine ⟨fun hs => absurd hs (by simp [hsel']), ?_, ?_⟩
    · simp [dueDates, hsel', daysFrom]
    · simpa [advance, hsel'] using h

/-- The day that a daily row has come to after some runs. -/
def dayAfter (a : ℤ) (runs : List Producing) : ℤ :=
  runs.foldl (fun a run => max a (run.now / day + 1)) a

/-- A row never goes back. -/
theorem le_dayAfter (a : ℤ) (runs : List Producing) : a ≤ dayAfter a runs := by
  induction runs generalizing a with
  | nil => exact le_rfl
  | cons run runs ih => exact (le_max_left _ _).trans (ih _)

/-- **Runs of a daily row.** -/
theorem Daily.runs {a : ℤ} (h : Daily D a c) (runs : List Producing)
    (hruns : ∀ run ∈ runs, run.Succeeds) : ∃ F, ∀ fuel, F ≤ fuel →
    RowRunsEnd D fuel runs c ∧ rowRuns D fuel runs c = daysFrom a (dayAfter a runs) := by
  induction runs generalizing a c with
  | nil => exact ⟨0, fun fuel _ => ⟨trivial, by simp [rowRuns, daysFrom, dayAfter]⟩⟩
  | cons run runs ih =>
    have hrun := hruns run List.mem_cons_self
    have hnext : Daily D (max a (run.now / day + 1)) (advance run.sysdate c) :=
      (h.due hrun (Nat.lt_succ_self _)).2.2
    obtain ⟨F, hF⟩ := ih hnext fun run' hrun' => hruns run' (List.mem_cons_of_mem _ hrun')
    refine ⟨max F ((run.now / day + 1 - a).toNat + 1), fun fuel hfuel => ?_⟩
    obtain ⟨hend, hdue, -⟩ := h.due hrun (show (run.now / day + 1 - a).toNat < fuel by omega)
    obtain ⟨hends, hdates⟩ := hF fuel (by omega)
    refine ⟨⟨hend, hends⟩, ?_⟩
    rw [rowRuns, hdue, hdates, daysFrom_append (le_max_left _ _) (le_dayAfter _ _)]
    rfl

/-! ### The schedule -/

/-- The dates are the dates of the schedule of the row before the end of the day of `last`, each of
    them once. -/
structure OnSchedule (c : DownloadFilesDef) (last : ℤ) (dates : List ℤ) : Prop where
  nodup : dates.Nodup
  mem_iff : ∀ x offset, c.nextDownload = some x → c.nextDownloadOffset = some offset →
    ∀ y, y ∈ dates.map (· * second) ↔
      (∃ k : ℕ, y = x * second + k * offset) ∧ y < (trunc last + day) * second

/-- With whole seconds. -/
theorem OnSchedule.mem_iff_whole {last x w : ℤ} {dates : List ℤ} (h : OnSchedule c last dates)
    (hx : c.nextDownload = some x) (ho : c.nextDownloadOffset = some (w * second)) (y : ℤ) :
    y ∈ dates ↔ (∃ k : ℕ, y = x + k * w) ∧ y < trunc last + day := by
  have hsec : ∀ u v : ℤ, u * second = v * second ↔ u = v := by
    intro u v
    simp only [second]
    omega
  have hterm : ∀ k : ℕ, x * second + k * (w * second) = (x + k * w) * second := fun k => by ring
  have hmem := h.mem_iff x _ hx ho (y * second)
  rw [List.mem_map] at hmem
  simp only [hsec, exists_eq_right, hterm] at hmem
  rw [hmem]
  simp only [second]
  refine and_congr_right fun _ => ?_
  omega

/-- The runs up to some day do not bring a row beyond it. -/
theorem dayAfter_le {a e : ℤ} {runs : List Producing} (h : ∀ run ∈ runs, run.now / day ≤ e) :
    dayAfter a runs ≤ max a (e + 1) := by
  induction runs generalizing a with
  | nil => exact le_max_left _ _
  | cons run runs ih =>
    have hnow := h run List.mem_cons_self
    have hrest := ih (a := max a (run.now / day + 1)) fun s hs => h s (List.mem_cons_of_mem _ hs)
    rw [dayAfter, List.foldl_cons]
    unfold dayAfter at hrest
    omega

/-- A daily row is on schedule. -/
theorem Daily.onSchedule {a : ℤ} {runs : List Producing} {last : Producing} (h : Daily D a c)
    (hruns : (runs ++ [last]).Pairwise fun s t => s.sysdate ≤ t.sysdate) :
    OnSchedule c last.now (daysFrom a (dayAfter a (runs ++ [last]))) := by
  have hle : ∀ run ∈ runs, run.now / day ≤ last.now / day := by
    intro run hrun
    have htrunc := (List.pairwise_append.mp hruns).2.2 run hrun last (by simp)
    simp only [Producing.sysdate, trunc, day] at htrunc ⊢
    omega
  -- the last run decides up to which day downloads have been produced
  have hend : dayAfter a (runs ++ [last]) = max a (last.now / day + 1) := by
    have hbefore := dayAfter_le (a := a) hle
    have hstart := le_dayAfter a runs
    rw [dayAfter, List.foldl_append, List.foldl_cons, List.foldl_nil, ← dayAfter]
    omega
  refine ⟨nodup_daysFrom _ _, ?_⟩
  intro x offset hx ho y
  rw [h.next] at hx
  rw [h.offset] at ho
  cases hx
  cases ho
  rw [hend, List.mem_map]
  simp only [mem_daysFrom]
  constructor
  · rintro ⟨_, ⟨k, rfl, hk⟩, rfl⟩
    refine ⟨⟨k, by ring⟩, ?_⟩
    simp only [trunc, day, second] at hk ⊢
    omega
  · rintro ⟨⟨k, rfl⟩, hy⟩
    refine ⟨_, ⟨k, rfl, ?_⟩, by ring⟩
    simp only [trunc, day, second] at hy ⊢
    omega

/-- What a run enqueues for a row with an offset of whole seconds. -/
theorem mem_dueDates {x w : ℤ} (hact : c.activeflag = some "Y") (hreg : Regular c)
    (hx : c.nextDownload = some x) (ho : c.nextDownloadOffset = some (w * second)) (hw : 0 < w)
    (hnow : trunc x ≤ run.sysdate) (hends : RowEnds D fuel run c) (y : ℤ) :
    y ∈ dueDates D fuel run c ↔ ∃ k : ℕ, y = x + k * w ∧ y < run.sysdate + w := by
  have hsel : selected run.sysdate c = true := by simp [selected, hact, hx, hnow]
  obtain ⟨slots, hslots⟩ := hends hsel
  rw [dueDates, if_pos hsel, rowSlots_eq hslots]
  rw [producerSlots_eq hreg hx ho, D.add_whole] at hslots
  exact mem_producerLoop hw hslots y

/-- The runs are on schedule for this row. -/
def RowOnSchedule (D : Dates) (c : DownloadFilesDef) : Prop :=
  ∀ runs last, (runs ++ [last]).Pairwise (fun s t => s.sysdate ≤ t.sysdate) →
    (∀ run ∈ runs ++ [last], run.Succeeds) →
    ∃ fuel, RowRunsEnd D fuel (runs ++ [last]) c ∧
      OnSchedule c last.now (rowRuns D fuel (runs ++ [last]) c)

/-- A run at some time in which no call of `p_enqueue` fails. -/
def Producing.quiet (now : ℤ) : Producing := ⟨now, fun _ => ⟨none, none, none⟩⟩

/-- Such runs succeed. -/
theorem succeeds_quiet (times : List ℤ) :
    ∀ run ∈ times.map Producing.quiet, run.Succeeds := by
  intro run hrun slot
  obtain ⟨now, -, rfl⟩ := List.mem_map.mp hrun
  rfl

/-- One such run on a schedule. -/
theorem RowOnSchedule.single (h : RowOnSchedule D c) (now : ℤ) :
    ∃ fuel, RowEnds D fuel (.quiet now) c ∧
      OnSchedule c now (dueDates D fuel (.quiet now) c) := by
  obtain ⟨fuel, hends, hsched⟩ := h [] (.quiet now) (List.pairwise_singleton _ _)
    (succeeds_quiet [now])
  simp only [List.nil_append, rowRuns, List.append_nil] at hsched
  exact ⟨fuel, hends.1, hsched⟩

/-- An offset that keeps a row on schedule is a number of seconds. -/
theorem RowOnSchedule.whole {x offset : ℤ} (h : RowOnSchedule D c) (hx : c.nextDownload = some x)
    (ho : c.nextDownloadOffset = some offset) (hpos : 0 < offset) : ∃ w, offset = w * second := by
  -- after a run that is late enough the second date has been enqueued, and is a date
  obtain ⟨fuel, -, hsched⟩ := h.single (x + offset)
  have hmem := (hsched.mem_iff x offset hx ho (x * second + (1 : ℕ) * offset)).mpr
    ⟨⟨1, rfl⟩, by simp only [trunc, day, second]; omega⟩
  obtain ⟨d, -, hd⟩ := List.mem_map.mp hmem
  refine ⟨d - x, ?_⟩
  simp only [second] at hd ⊢
  omega

/-- The midnight of a date. -/
theorem trunc_le (x : ℤ) : trunc x ≤ x ∧ x < trunc x + day := by
  simp only [trunc, day]
  omega

/-- A day later. -/
theorem trunc_add_day (x : ℤ) : trunc (x + day) = trunc x + day := by
  simp only [trunc, day]
  omega

/-- A first run that is on schedule does not stop short of its day. -/
theorem RowOnSchedule.first_day {x w : ℤ} (h : RowOnSchedule D c)
    (hact : c.activeflag = some "Y") (hreg : Regular c) (hx : c.nextDownload = some x)
    (ho : c.nextDownloadOffset = some (w * second)) (hw : 0 < w) : trunc x + day ≤ x + w := by
  obtain ⟨fuel, hends, hsched⟩ := h.single x
  have hdue := mem_dueDates hact hreg hx ho hw le_rfl hends
  by_contra hshort
  -- the second date would be on this day, but beyond the bound of the loop
  have hmem := (hsched.mem_iff_whole hx ho (x + w)).mpr ⟨⟨1, by simp⟩, by omega⟩
  obtain ⟨-, -, hlt⟩ := (hdue (x + w)).mp hmem
  simp only [Producing.sysdate, Producing.quiet] at hlt
  have hday := trunc_le x
  omega

/-- What the runs of the first two days enqueue, and what they are to enqueue: the second one starts
    at the next midnight whatever the offset is. -/
theorem RowOnSchedule.second_day {x w : ℤ} (h : RowOnSchedule D c)
    (hact : c.activeflag = some "Y") (hreg : Regular c) (hx : c.nextDownload = some x)
    (ho : c.nextDownloadOffset = some (w * second)) (hw : 0 < w) (y : ℤ) :
    ((∃ k : ℕ, y = x + k * w ∧ y < trunc x + w) ∨
        ∃ k : ℕ, y = trunc x + day + k * w ∧ y < trunc x + day + w) ↔
      (∃ k : ℕ, y = x + k * w) ∧ y < trunc x + day + day := by
  obtain ⟨fuel, hends, hsched⟩ := h [.quiet x] (.quiet (x + day)) (List.pairwise_pair.mpr <| by
      simp only [Producing.sysdate, Producing.quiet, trunc_add_day]
      exact Int.le_add_of_nonneg_right (by decide)) (succeeds_quiet [x, x + day])
  let c' := { c with nextDownload := some (trunc x + day) }
  have hadv : advance (trunc x) c = c' := by simp [advance, selected, hact, hx, c']
  have hsys : ∀ now, (Producing.quiet now).sysdate = trunc now := fun _ => rfl
  have hnow : ∀ now, (Producing.quiet now).now = now := fun _ => rfl
  have hmid : trunc (trunc x + day) = trunc x + day := by
    simp only [trunc, day]
    omega
  obtain ⟨hend₁, hend₂, -⟩ := hends
  rw [hsys, hadv] at hend₂
  have hdue₁ := mem_dueDates hact hreg hx ho hw le_rfl hend₁
  have hdue₂ := mem_dueDates (c := c') hact ⟨⟨_, rfl⟩, hreg.offset, hreg.options⟩ rfl ho hw
    (by rw [hmid, hsys, trunc_add_day]) hend₂
  simp only [List.singleton_append, rowRuns, List.append_nil, hsys, hnow, hadv] at hsched
  have hmem := hsched.mem_iff_whole hx ho y
  simpa only [List.mem_append, hdue₁, hdue₂, hsys, trunc_add_day] using hmem

/-- **A row that stays on schedule is a daily one.**  The first run must not stop short of its day
    nor go beyond it, and the next one starts at the next midnight whatever the offset is. -/
theorem RowOnSchedule.midnight (h : RowOnSchedule D c) (hact : c.activeflag = some "Y")
    (hreg : Regular c) :
    c.nextDownloadOffset = some (day * second) ∧ ∃ a, c.nextDownload = some (a * day) := by
  obtain ⟨x, hx⟩ := hreg.next
  obtain ⟨offset, ho, hpos⟩ := hreg.offset
  obtain ⟨w, rfl⟩ := h.whole hx ho hpos
  have hw : 0 < w := by
    simp only [second] at hpos
    omega
  have hday := trunc_le x
  have hlong := h.first_day hact hreg hx ho hw
  have hmem := h.second_day hact hreg hx ho hw
  -- the midnight of the second day is enqueued, so that it is a date of the schedule
  have hmidnight : x + w = trunc x + day := by
    obtain ⟨⟨k, hk⟩, -⟩ := (hmem (trunc x + day)).mp (Or.inr ⟨0, by simp, by omega⟩)
    have hk0 : k ≠ 0 := by
      rintro rfl
      simp at hk
      omega
    have hkw : w ≤ k * w := by
      refine le_mul_of_one_le_left hw.le ?_
      exact_mod_cast Nat.one_le_iff_ne_zero.mpr hk0
    omega
  -- and the next date of the schedule is not on the second day
  have hfull : day ≤ w := by
    by_contra hshort
    rcases (hmem (x + 2 * w)).mpr ⟨⟨2, rfl⟩, by omega⟩ with ⟨-, -, hlt⟩ | ⟨-, -, hlt⟩
    · omega
    · omega
  refine ⟨?_, x / day, ?_⟩
  · rw [ho]
    refine congrArg (fun w => some (w * second)) ?_
    omega
  · rw [hx]
    refine congrArg some ?_
    simp only [trunc, day] at hmidnight hfull hday ⊢
    omega

/-- And `to_char` can write all its midnights: each of them is enqueued by the run of its day. -/
theorem RowOnSchedule.formats {a : ℤ} (h : RowOnSchedule D c) (hact : c.activeflag = some "Y")
    (hreg : Regular c) (ha : c.nextDownload = some (a * day))
    (ho : c.nextDownloadOffset = some (day * second)) : Formats D a c := by
  intro k
  obtain ⟨fuel, hends, hsched⟩ := h.single ((a + k) * day)
  have hmem := (hsched.mem_iff_whole ha ho ((a + k) * day)).mpr
    ⟨⟨k, by ring⟩, by simp only [trunc, day]; omega⟩
  have hsel : selected (Producing.quiet ((a + k) * day)).sysdate c = true := by
    simp only [selected, hact, ha, Producing.sysdate, Producing.quiet, trunc, day, Option.any_some]
    simp
  obtain ⟨slots, hslots⟩ := hends hsel
  rw [dueDates, if_pos hsel, rowSlots_eq hslots] at hmem
  obtain ⟨slot, hslot, hdate⟩ := List.mem_map.mp hmem
  rw [producerSlots_eq hreg ha ho] at hslots
  have hurl := (produce_ok (produce_of_loop hslots slot hslot)).2.2
  rw [hdate] at hurl
  exact ⟨_, hurl⟩

/-- A row that is not active is not touched. -/
theorem rowRunsEnd_of_inactive (hact : c.activeflag ≠ some "Y") (runs : List Producing) :
    RowRunsEnd D fuel runs c := by
  have hsel : ∀ sysdate, selected sysdate c = false := fun sysdate => by simp [selected, hact]
  induction runs with
  | nil => exact trivial
  | cons run runs ih =>
    refine ⟨fun h => by simp [hsel] at h, ?_⟩
    simpa only [advance, hsel, Bool.false_eq_true, if_false] using ih

/-- Enough fuel for every row is enough fuel for the table. -/
theorem exists_fuel_forall {P : ℕ → DownloadFilesDef → Prop}
    (h : ∀ c ∈ table, ∃ F, ∀ fuel, F ≤ fuel → P fuel c) : ∃ fuel, ∀ c ∈ table, P fuel c := by
  choose! F hF using h
  refine ⟨(table.map F).sum, fun c hc => hF c hc _ ?_⟩
  exact List.le_sum_of_mem (List.mem_map_of_mem hc)

/-- In runs of the table every row is on schedule exactly if it is so by itself. -/
theorem rowOnSchedule_of_runs (hid : (table.map (·.downloadFileDefId)).Nodup)
    (h : ∀ runs last, (runs ++ [last]).Pairwise (fun s t => s.sysdate ≤ t.sysdate) →
      (∀ run ∈ runs ++ [last], run.Succeeds) →
      ∃ fuel out, producerRuns D fuel (runs ++ [last]) table = .ok out ∧
        OnSchedule c last.now (datesOf c.downloadFileDefId out.2)) (hc : c ∈ table) :
    RowOnSchedule D c := by
  intro runs last hruns hsucceed
  obtain ⟨fuel, out, hrun, hsched⟩ := h runs last hruns hsucceed
  refine ⟨fuel, (producerRuns_ok_iff hid _).mp ⟨out, hrun⟩ c hc, ?_⟩
  rw [← datesOf_producerRuns hid hrun c hc]
  exact hsched

/-- **The schedule.**  Where the definitions that are of another kind do not stop the runs, the
    dates of every active definition with a positive offset and without `skip_old_files` are
    enqueued on schedule, in every history of runs on non-decreasing days in which `p_enqueue`
    does not fail, exactly if all these definitions are daily ones that start at a midnight, with
    a URL that is a date format: the loop ends at an offset after the run's day, the date that is
    saved is the next midnight, and an exception of `to_char` ends the run. -/
theorem schedule_exact (hid : (table.map (·.downloadFileDefId)).Nodup)
    (hothers : ∀ c ∈ table, c.activeflag = some "Y" → ¬ Regular c →
      ∀ runs : List Producing, (∀ run ∈ runs, run.Succeeds) →
        ∃ F, ∀ fuel, F ≤ fuel → RowRunsEnd D fuel runs c) :
    (∀ runs last, (runs ++ [last]).Pairwise (fun s t => s.sysdate ≤ t.sysdate) →
      (∀ run ∈ runs ++ [last], run.Succeeds) →
      ∃ fuel out, producerRuns D fuel (runs ++ [last]) table = .ok out ∧
        ∀ c ∈ table, c.activeflag = some "Y" → Regular c →
          OnSchedule c last.now (datesOf c.downloadFileDefId out.2)) ↔
      ∀ c ∈ table, c.activeflag = some "Y" → Regular c →
        c.nextDownloadOffset = some (day * second) ∧
          ∃ a, c.nextDownload = some (a * day) ∧ Formats D a c := by
  constructor
  · intro h c hc hact hreg
    have hrow : RowOnSchedule D c := by
      refine rowOnSchedule_of_runs hid (fun runs last hruns hsucceed => ?_) hc
      obtain ⟨fuel, out, hrun, hsched⟩ := h runs last hruns hsucceed
      exact ⟨fuel, out, hrun, hsched c hc hact hreg⟩
    obtain ⟨ho, a, ha⟩ := hrow.midnight hact hreg
    exact ⟨ho, a, ha, hrow.formats hact hreg ha ho⟩
  · intro h runs last hruns hsucceed
    -- every row has enough fuel at some point, and a daily one is on schedule then
    have hrows : ∀ c ∈ table, ∃ F, ∀ fuel, F ≤ fuel → RowRunsEnd D fuel (runs ++ [last]) c ∧
        (c.activeflag = some "Y" → Regular c →
          OnSchedule c last.now (rowRuns D fuel (runs ++ [last]) c)) := by
      intro c hc
      by_cases hact : c.activeflag = some "Y"
      · by_cases hreg : Regular c
        · obtain ⟨ho, a, ha, hformats⟩ := h c hc hact hreg
          have hdaily : Daily D a c := ⟨hact, ha, ho, hreg.options, hformats⟩
          obtain ⟨F, hF⟩ := hdaily.runs (runs ++ [last]) hsucceed
          refine ⟨F, fun fuel hfuel => ⟨(hF fuel hfuel).1, fun _ _ => ?_⟩⟩
          rw [(hF fuel hfuel).2]
          exact hdaily.onSchedule hruns
        · obtain ⟨F, hF⟩ := hothers c hc hact hreg (runs ++ [last]) hsucceed
          exact ⟨F, fun fuel hfuel => ⟨hF fuel hfuel, fun _ hr => absurd hr hreg⟩⟩
      · exact ⟨0, fun _ _ => ⟨rowRunsEnd_of_inactive hact _, fun ha => absurd ha hact⟩⟩
    obtain ⟨fuel, hfuel⟩ := exists_fuel_forall hrows
    obtain ⟨out, hrun⟩ := (producerRuns_ok_iff hid _).mpr fun c hc => (hfuel c hc).1
    refine ⟨fuel, out, hrun, fun c hc hact hreg => ?_⟩
    rw [datesOf_producerRuns hid hrun c hc]
    exact (hfuel c hc).2 hact hreg

/-- A definition that is due every day at midnight, from day 0 on. -/
def dailyDef : DownloadFilesDef := ⟨1, "J", some 0, some (day * second), none, "", "", some "Y"⟩

/-- A definition that is due twice a day, from the midnight of day 0 on. -/
def halfDayDef : DownloadFilesDef :=
  { dailyDef with nextDownloadOffset := some (day / 2 * second) }

/-- Dates that are rounded down to seconds, and one format, the number of the day. -/
def Dates.floor : Dates where
  seconds t := t / second
  seconds_whole n := Int.mul_ediv_cancel n (by decide)
  toChar date format :=
    if format = "J" then .ok (some (toString (date / day)))
    else .error ⟨-1821, "date format not recognized", []⟩

/-- The definition of a daily download is regular. -/
theorem regular_dailyDef : Regular dailyDef := ⟨⟨0, rfl⟩, ⟨_, rfl, by decide⟩, ⟨_, rfl, by decide⟩⟩

/-- With one daily definition, two runs on different days. -/
theorem schedule_exact_daily : ∃ fuel out,
    producerRuns Dates.floor fuel ([.quiet 0] ++ [.quiet (3 * day)]) [dailyDef] = .ok out ∧
      ∀ c ∈ [dailyDef], c.activeflag = some "Y" → Regular c →
        OnSchedule c (3 * day) (datesOf c.downloadFileDefId out.2) := by
  have hexact := @schedule_exact Dates.floor [dailyDef] (by decide) (by
    intro c hc _ hreg
    rw [List.mem_singleton.mp hc] at hreg
    exact absurd regular_dailyDef hreg)
  refine hexact.mpr ?_ [.quiet 0] (.quiet (3 * day)) (by decide)
    (succeeds_quiet [0, 3 * day])
  intro c hc _ _
  rw [List.mem_singleton.mp hc]
  exact ⟨rfl, 0, rfl, fun k => ⟨_, rfl⟩⟩

/-- The date at noon is not enqueued by the run of the day: the loop stops half a day after
    midnight. -/
theorem noon_missed : Regular halfDayDef ∧ halfDayDef.activeflag = some "Y" ∧
    Formats Dates.floor 0 halfDayDef ∧
    (producerRuns Dates.floor 2 [.quiet 0] [halfDayDef]).toOption.map (fun out => datesOf 1 out.2) =
      some [0] ∧
    ¬ OnSchedule halfDayDef 0 [0] := by
  refine ⟨⟨⟨0, rfl⟩, ⟨_, rfl, by decide⟩, ⟨_, rfl, by decide⟩⟩, rfl, fun k => ⟨_, rfl⟩, by decide,
    fun h => ?_⟩
  have hnoon := (h.mem_iff_whole rfl rfl (day / 2)).mpr ⟨⟨1, by decide⟩, by decide⟩
  exact absurd hnoon (by decide)

/-- A URL that is no date format: the run of a daily definition ends with the exception. -/
example : producerSlots Dates.floor 2 (.quiet 0) { dailyDef with url := "http://x/rates" } =
    .error (.raised ⟨-1821, "date format not recognized", []⟩) := rfl

end Niuchacz.Oracle
