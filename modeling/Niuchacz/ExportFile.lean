import Mathlib.Data.List.TakeWhile
import Niuchacz.Lib.Delimited
import Niuchacz.Lib.Numerals
import Niuchacz.PacketAnalyze.Decode

namespace Niuchacz.ExportFile

open Database Lib.Transition PacketAnalyze
open Lib.Numerals (decimal ofDecimal ofDecimal_decimal mem_decimal length_decimal_le)

/-!
# Export of the packets (`export_file.c`)

`cmdExportFileExec` writes the rows of `packets` into a file, one line for each, with the names of
the columns in front.  A line is put together with `strcat` in a buffer of fixed size, and nothing
is quoted.

* `cmdExportFileExec` — the command; `none` is a line that leaves its buffer, or a column without
  text.
* `Inserted` — what `cmdPacketAnalyzeExec` inserts; `packets_inserted` — there is nothing else in
  the table after any run.
* `line_eq` — the loop over the columns, within the buffer.
* `foldl_exportCallback` — the file after some rows, in terms of `Lib.Delimited`.
* `export_determines_table` — the table is read back from the file.

`sqlite3_column_text` gives integers in decimal form, and `write` writes everything.
-/

/-! ### The command -/

def newline : UInt8 := 10

def bar : UInt8 := 124

/-- The names of the columns of `packets`. -/
def columnNames : List Text :=
  ["ts_sec", "ts_usec", "eth_src_id", "eth_dst_id", "eth_type", "ip_vhl", "ip_tos", "ip_len",
    "ip_id", "ip_off", "ip_ttl", "ip_p", "ip_sum", "ip_src_id", "ip_dst_id", "payload"].map
      fun name => name.toList.map fun c => UInt8.ofNat c.toNat

/-- The columns of a row. -/
def values (row : PacketRow) : List SqlValue :=
  [row.ts_sec, row.ts_usec, row.eth_src_id, row.eth_dst_id, row.eth_type, row.ip_vhl, row.ip_tos,
    row.ip_len, row.ip_id, row.ip_off, row.ip_ttl, row.ip_p, row.ip_sum, row.ip_src_id,
    row.ip_dst_id, row.payload]

/-- `sqlite3_column_text`, as a C string; there is none for `NULL`. -/
def columnText : SqlValue → Option Text
  | .null => none
  | .int n => some (decimal n.toInt)
  | .text s => some (s.takeWhile (· ≠ 0))

/-- `strcat` into `buffer[512]`, which has to hold a 0 behind the text. -/
def strcat (buffer s : Text) : Option Text :=
  if (buffer ++ s).length < 512 then some (buffer ++ s) else none

/-- The loop over the columns from number `i` on. -/
def appendColumns : ℕ → List (Option Text) → Text → Option Text
  | _, [], buffer => some buffer
  | i, column :: columns, buffer => do
      let buffer ← if i > 0 then strcat buffer [bar] else some buffer
      let text ← column
      let buffer ← strcat buffer text
      appendColumns (i + 1) columns buffer

/-- The buffer when it is written, from an empty one on. -/
def line (columns : List (Option Text)) : Option Text := do
  let buffer ← appendColumns 0 columns []
  strcat buffer [newline]

/-- `cmd_export_onefile_t`: what has been written to the file, and whether the header has been. -/
structure OneFile where
  isHeaderPrinted : Bool
  written : Text

/-- `i_cmdExportCallback`, which returns 0. -/
def exportCallback (fileinfo : OneFile) (row : PacketRow) : Option OneFile := do
  let fileinfo ←
    if !fileinfo.isHeaderPrinted then
      (line (columnNames.map some)).map fun buffer => ⟨true, fileinfo.written ++ buffer⟩
    else some fileinfo
  let buffer ← line ((values row).map columnText)
  return { fileinfo with written := fileinfo.written ++ buffer }

/-- The callback in the loop over the rows. -/
def exportRow (fileinfo : Option OneFile) (row : PacketRow) : Option OneFile × Int32 :=
  (fileinfo.bind (exportCallback · row), 0)

/-- The result of the command, and the content of the file if it has been opened. -/
structure Exported where
  ret : Int32
  file : Option Text
  deriving DecidableEq

/-- `sizeof(cmd_export_cfg_t)`. -/
def sizeofCfg : ℕ := 255

/-- `cmdExportFileExec`: `opens` says whether the file can be opened, `opened` and `ans` are the
    state of the database and the answers of sqlite, and `packets` the rows of the table. -/
def cmdExportFileExec (dataSize : ℕ) (opens opened : Bool) (ans : Answer)
    (packets : List PacketRow) : Option Exported :=
  if dataSize ≠ sizeofCfg then some ⟨-1, none⟩
  else if !opens then some ⟨-1, none⟩
  else
    let r := dbExec exportRow opened ans (bindVariables 0 [] 0) packets (some ⟨false, []⟩)
    r.1.map fun fileinfo => ⟨0, some fileinfo.written⟩

/-! ### The rows of the table -/

/-- A string of at most 32 hexadecimal digits. -/
structure HexPayload (s : Text) : Prop where
  length_le : s.length ≤ 32
  digits : ∀ c ∈ s, ∃ n, unhexDigit c = some n

/-- A row that `cmdPacketAnalyzeExec` can insert: the values of its last statement, with a payload
    of digits. -/
def Inserted (row : PacketRow) : Prop :=
  ∃ (c : ExecCall) (results : Mapper) (ethSrcID ethDstID ipSrcID ipDstID : Int32),
    HexPayload results.payload ∧
    (bindVariables 16 (packetArgs c results ethSrcID ethDstID ipSrcID ipDstID) 16).bind
      packetRowOf = some row

/-- The frame of a call has been decoded by `mapFrame`. -/
def Framed (c : ExecCall) : Prop :=
  ∃ frame framelen, c.mapped = (mapFrame frame framelen).value.map MapperT.toMapper

variable {row : PacketRow} {rows packets : List PacketRow} {libc : Libc}
  {s s₀ : PacketAnalyze.State} {c : ExecCall} {results : Mapper}

/-- The payload of such a call is a hexadecimal text. -/
theorem Framed.payload (hc : Framed c) (hmapped : c.mapped = some results) :
    HexPayload results.payload := by
  obtain ⟨frame, framelen, hframe⟩ := hc
  rw [hmapped] at hframe
  obtain ⟨r, hr, rfl⟩ := Option.map_eq_some_iff.mp hframe.symm
  obtain ⟨hlen, hdigits⟩ := mapFrame_payload hr
  exact ⟨hlen, hdigits⟩

/-- The insertion keeps the rows of the form that the program inserts. -/
theorem inserted_insertPacket {i j k l : Int32} (hpayload : HexPayload results.payload)
    (hpackets : ∀ row ∈ packets, Inserted row) :
    ∀ row ∈ (insertPacket c results i j k l packets).1, Inserted row := by
  intro row hrow
  unfold insertPacket at hrow
  dsimp only at hrow
  split at hrow
  · rcases List.mem_append.mp hrow with hrow | hrow
    · exact hpackets row hrow
    · exact ⟨c, results, i, j, k, l, hpayload, Option.mem_toList.mp hrow⟩
  · exact hpackets row hrow

/-- **Step.**  A call for a frame adds only such rows. -/
theorem inserted_exec {e : PacketAnalyze.Executed} (he : cmdPacketAnalyzeExec libc s c = some e)
    (hc : Framed c) (hs : ∀ row ∈ s.packets, Inserted row) :
    ∀ row ∈ e.state.packets, Inserted row := by
  unfold cmdPacketAnalyzeExec at he
  cases hmapped : c.mapped with
  | none =>
    rw [hmapped] at he
    obtain rfl := Option.some.inj he
    exact hs
  | some results =>
    have hpayload := hc.payload hmapped
    rw [hmapped] at he
    simp only [Option.bind_eq_bind, Option.bind_eq_some_iff] at he
    obtain ⟨⟨eth₁, i⟩, -, ⟨eth₂, j⟩, -, ⟨ip₁, k⟩, -, ⟨ip₂, l⟩, -, he⟩ := he
    dsimp only at he
    split at he
    -- without identifiers, or if the insertion fails, the table stays as it is
    · obtain rfl := Option.some.inj he
      exact hs
    · split at he
      · obtain rfl := Option.some.inj he
        exact hs
      · obtain rfl := Option.some.inj he
        exact inserted_insertPacket hpayload hs

/-- **Run.**  There is nothing else in the table after any run. -/
theorem packets_inserted {h : List (PacketAnalyze.State × ExecCall)}
    (hrun : Run (execStep libc) s₀ h s)
    (hframed : ∀ x ∈ h, Framed x.2) (hs₀ : ∀ row ∈ s₀.packets, Inserted row) :
    ∀ row ∈ s.packets, Inserted row := by
  induction hrun with
  | nil => exact hs₀
  | @snoc h s s' c _ hstep ih =>
    obtain ⟨e, he, rfl⟩ := Option.map_eq_some_iff.mp hstep
    exact inserted_exec he (hframed (s, c) (by simp)) (ih fun x hx => hframed x (by simp [hx]))

/-- Fifteen integers and the payload. -/
theorem Inserted.values (h : Inserted row) : ∃ (ns : List Int64) (payload : Text),
    ns.length = 15 ∧ HexPayload payload ∧
      ExportFile.values row = ns.map SqlValue.int ++ [.text payload] := by
  obtain ⟨c, results, i, j, k, l, hpayload, hrow⟩ := h
  rw [bindVariables_packetArgs] at hrow
  obtain rfl := Option.some.inj hrow
  exact ⟨_ :: _ :: _ :: _ :: _ :: _ :: _ :: _ :: _ :: _ :: _ :: _ :: _ :: _ :: [_], _, rfl,
    hpayload, rfl⟩

/-! ### One line -/

/-- The bytes that some columns take with what follows them. -/
def width (fields : List Text) : ℕ := (fields.map fun field => field.length + 1).sum

@[simp] theorem width_cons (field : Text) (fields : List Text) :
    width (field :: fields) = field.length + 1 + width fields := List.sum_cons

/-- **Run.**  The loop from the second column on, as long as the buffer lasts. -/
theorem appendColumns_eq (fields : List Text) {i : ℕ} (buffer : Text) (hi : 0 < i)
    (hfits : buffer.length + width fields < 512) :
    appendColumns i (fields.map some) buffer = some (buffer ++ fields.flatMap (bar :: ·)) := by
  induction fields generalizing i buffer with
  | nil => simp [appendColumns]
  | cons field fields ih =>
    rw [width_cons] at hfits
    have hbar : strcat buffer [bar] = some (buffer ++ [bar]) := by
      rw [strcat, if_pos (by simp; omega)]
    have hfield : strcat (buffer ++ [bar]) field = some (buffer ++ [bar] ++ field) := by
      rw [strcat, if_pos (by simp; omega)]
    have hrest := ih (buffer ++ [bar] ++ field) (Nat.succ_pos i) (by simp; omega)
    simp only [List.map_cons, appendColumns, if_pos hi, hbar, hfield, Option.bind_eq_bind,
      Option.bind_some, hrest, List.flatMap_cons]
    simp

/-- A line that fits. -/
theorem line_eq {fields : List Text} (hne : fields ≠ []) (hfits : width fields < 512) :
    line (fields.map some) = some (Lib.Delimited.write newline bar [fields]) := by
  obtain ⟨field, fields, rfl⟩ := List.exists_cons_of_ne_nil hne
  rw [width_cons] at hfits
  have hlen : (fields.flatMap (bar :: ·)).length = width fields := by
    simp [width, List.length_flatMap]
  have hfirst : strcat [] field = some field := by
    rw [strcat, if_pos (by simp; omega), List.nil_append]
  -- each of the other columns is preceded by a bar
  have hrest := appendColumns_eq fields field Nat.one_pos (by omega)
  have hend : strcat (field ++ fields.flatMap (bar :: ·)) [newline] =
      some (field ++ fields.flatMap (bar :: ·) ++ [newline]) := by
    rw [strcat, if_pos (by simp only [List.length_append, hlen, List.length_singleton]; omega)]
  have hwrite : Lib.Delimited.write newline bar [field :: fields] =
      field ++ fields.flatMap (bar :: ·) ++ [newline] := by
    simp [Lib.Delimited.write, Lib.Delimited.intercalate_cons]
  rw [hwrite]
  simp only [line, List.map_cons, appendColumns, gt_iff_lt, Nat.lt_irrefl, if_false,
    Option.bind_eq_bind, Option.bind_some, hfirst, hrest, hend]

/-! ### Rows as text and back -/

/-- The text of the columns. -/
def fields (row : PacketRow) : List Text := (values row).map fun v => (columnText v).getD []

/-- The row that the fields of a line stand for. -/
def readRow (fields : List Text) : Option PacketRow :=
  packetRowOf ((fields.dropLast.map fun t => .int (Int64.ofInt (ofDecimal t))) ++
    [.text (fields.getLastD [])])

/-- A field without a newline or a bar. -/
def Plain (field : Text) : Prop := Lib.Delimited.Plain newline bar field

/-- A payload has only digits. -/
theorem HexPayload.notMem {s : Text} (h : HexPayload s) {b : UInt8} (hb : unhexDigit b = none) :
    b ∉ s := by
  intro hmem
  obtain ⟨n, hn⟩ := h.digits b hmem
  rw [hb] at hn
  cases hn

theorem HexPayload.plain {s : Text} (h : HexPayload s) : Plain s :=
  ⟨h.notMem rfl, h.notMem rfl⟩

/-- Nothing of it is lost at a 0. -/
theorem HexPayload.columnText {s : Text} (h : HexPayload s) :
    ExportFile.columnText (.text s) = some s := by
  refine congrArg some (List.takeWhile_eq_self_iff.mpr ?_)
  intro c hc
  refine decide_eq_true ?_
  rintro rfl
  exact h.notMem rfl hc

theorem plain_decimal (n : ℤ) : Plain (decimal n) := by
  constructor
  · intro hmem
    rcases mem_decimal hmem with h | h
    · cases h
    · exact absurd h.1 (by decide)
  · intro hmem
    rcases mem_decimal hmem with h | h
    · cases h
    · exact absurd h.2 (by decide)

/-- A number takes 20 characters at most. -/
theorem length_decimal_int64 (n : Int64) : (decimal n.toInt).length ≤ 20 := by
  have hlt := n.toInt_lt
  have hle := n.le_toInt
  exact length_decimal_le (k := 19) (by decide) (by omega)

/-- The fields of an inserted row. -/
theorem fields_eq {ns : List Int64} {payload : Text} (hpayload : HexPayload payload)
    (hvalues : values row = ns.map SqlValue.int ++ [.text payload]) :
    fields row = (ns.map fun n => decimal n.toInt) ++ [payload] := by
  rw [fields, hvalues, List.map_append, List.map_map]
  simp only [List.map_cons, List.map_nil, hpayload.columnText, Option.getD_some]
  rfl

/-- Every column has a text. -/
theorem Inserted.map_columnText (h : Inserted row) :
    (ExportFile.values row).map columnText = (fields row).map some := by
  obtain ⟨ns, payload, -, hpayload, hvalues⟩ := h.values
  rw [fields_eq hpayload hvalues, hvalues, List.map_append, List.map_append, List.map_map,
    List.map_map, List.map_singleton, List.map_singleton, hpayload.columnText]
  rfl

theorem fields_ne_nil (row : PacketRow) : fields row ≠ [] := by
  simp [fields, values]

/-- No field of an inserted row has a separator. -/
theorem Inserted.plain (h : Inserted row) : ∀ field ∈ fields row, Plain field := by
  obtain ⟨ns, payload, -, hpayload, hvalues⟩ := h.values
  rw [fields_eq hpayload hvalues]
  intro field hfield
  rcases List.mem_append.mp hfield with hfield | hfield
  · obtain ⟨n, -, rfl⟩ := List.mem_map.mp hfield
    exact plain_decimal n.toInt
  · rw [List.mem_singleton.mp hfield]
    exact hpayload.plain

/-- **Bound.**  Fifteen integers of at most 20 characters and 32 digits. -/
theorem Inserted.width_lt (h : Inserted row) : width (fields row) < 512 := by
  obtain ⟨ns, payload, hlen, hpayload, hvalues⟩ := h.values
  have hints : width (ns.map fun n => decimal n.toInt) ≤ ns.length * 21 := by
    clear hlen hvalues
    induction ns with
    | nil => simp [width]
    | cons n ns ih =>
      have hn := length_decimal_int64 n
      rw [List.map_cons, width_cons, List.length_cons]
      omega
  have happend : width ((ns.map fun n => decimal n.toInt) ++ [payload]) =
      width (ns.map fun n => decimal n.toInt) + (payload.length + 1) := by
    simp [width]
  have hle := hpayload.length_le
  rw [fields_eq hpayload hvalues, happend]
  omega

/-- **Round trip** of a row. -/
theorem Inserted.readRow_fields (h : Inserted row) : readRow (fields row) = some row := by
  obtain ⟨ns, payload, -, hpayload, hvalues⟩ := h.values
  have hread : ((fields row).dropLast.map fun t =>
      SqlValue.int (Int64.ofInt (ofDecimal t))) ++ [.text ((fields row).getLastD [])] =
        ExportFile.values row := by
    rw [fields_eq hpayload hvalues, hvalues, List.dropLast_concat, List.map_map,
      List.getLastD_concat]
    congr 1
    refine List.map_congr_left ?_
    intro n _
    show SqlValue.int (Int64.ofInt (ofDecimal (decimal n.toInt))) = SqlValue.int n
    rw [ofDecimal_decimal, Int64.ofInt_toInt]
  rw [readRow, hread]
  rfl

/-! ### The file -/

/-- The first line is written by the same function. -/
theorem line_columnNames :
    line (columnNames.map some) = some (Lib.Delimited.write newline bar [columnNames]) :=
  line_eq (by decide) (by decide)

theorem plain_columnNames : ∀ field ∈ columnNames, Plain field := by
  have hall : ∀ field ∈ columnNames, newline ∉ field ∧ bar ∉ field := by decide
  exact hall

theorem write_append (table table' : List (List Text)) :
    Lib.Delimited.write newline bar (table ++ table') =
      Lib.Delimited.write newline bar table ++ Lib.Delimited.write newline bar table' :=
  List.flatMap_append

/-- **Step.**  One line for a row, behind the header if there is none yet. -/
theorem exportCallback_eq (h : Inserted row) (fileinfo : OneFile) :
    exportCallback fileinfo row = some ⟨true, fileinfo.written ++ Lib.Delimited.write newline bar
      ((if fileinfo.isHeaderPrinted then [] else [columnNames]) ++ [fields row])⟩ := by
  have hline := line_eq (fields_ne_nil row) h.width_lt
  obtain ⟨isHeaderPrinted, written⟩ := fileinfo
  cases isHeaderPrinted with
  | true => simp [exportCallback, h.map_columnText, hline]
  | false =>
    simp only [exportCallback, h.map_columnText, hline, line_columnNames, Bool.not_false, if_true,
      Option.map_some, Option.bind_eq_bind, Option.bind_some, Option.pure_def, write_append,
      Bool.false_eq_true, if_false, List.append_assoc]

/-- **Run.**  The file after some rows, when the header has been written. -/
theorem foldl_exportCallback (hrows : ∀ row ∈ rows, Inserted row) (written : Text) :
    rows.foldl (fun fileinfo row => (exportRow fileinfo row).1) (some ⟨true, written⟩) =
      some ⟨true, written ++ Lib.Delimited.write newline bar (rows.map fields)⟩ := by
  induction rows generalizing written with
  | nil => simp [Lib.Delimited.write]
  | cons row rows ih =>
    rw [List.foldl_cons, exportRow, Option.bind_some, exportCallback_eq (hrows row (by simp)),
      if_pos rfl, List.nil_append, ih fun r hr => hrows r (List.mem_cons_of_mem row hr),
      List.append_assoc, ← write_append]
    rfl

/-- The content of the file. -/
def fileText (rows : List PacketRow) : Text :=
  if rows = [] then [] else Lib.Delimited.write newline bar (columnNames :: rows.map fields)

/-- The command writes this file, however many rows there are. -/
theorem cmdExportFileExec_eq (hrows : ∀ row ∈ rows, Inserted row) :
    cmdExportFileExec sizeofCfg true true .ok rows = some ⟨0, some (fileText rows)⟩ := by
  have hfile : ∃ b, rows.foldl (fun fileinfo row => (exportRow fileinfo row).1)
      (some ⟨false, []⟩) = some ⟨b, fileText rows⟩ := by
    cases rows with
    | nil => exact ⟨false, rfl⟩
    -- ==> the header is written together with the first row
    | cons row rows =>
      refine ⟨true, ?_⟩
      rw [List.foldl_cons, exportRow, Option.bind_some, exportCallback_eq (hrows row (by simp)),
        foldl_exportCallback fun r hr => hrows r (List.mem_cons_of_mem row hr), List.append_assoc,
        ← write_append]
      rfl
  obtain ⟨b, hfile⟩ := hfile
  have hexec : (dbExec exportRow true .ok (bindVariables 0 [] 0) rows (some ⟨false, []⟩)).1 =
      some ⟨b, fileText rows⟩ := (dbExec_of_answer (fun _ _ => rfl) rfl rows _).trans hfile
  rw [cmdExportFileExec, if_neg (not_not.mpr rfl), if_neg (by decide)]
  dsimp only
  rw [hexec, Option.map_some]

/-- The header and the fields of the rows, from the file. -/
theorem read_fileText (hrows : ∀ row ∈ rows, Inserted row) (hne : rows ≠ []) :
    Lib.Delimited.read newline bar (fileText rows) = columnNames :: rows.map fields := by
  rw [fileText, if_neg hne]
  refine Lib.Delimited.read_write (by decide) ?_ ?_
  · intro fs hfs
    rcases List.mem_cons.mp hfs with rfl | hfs
    · decide
    · obtain ⟨row, -, rfl⟩ := List.mem_map.mp hfs
      exact fields_ne_nil row
  · intro fs hfs
    rcases List.mem_cons.mp hfs with rfl | hfs
    · exact plain_columnNames
    · obtain ⟨row, hrow, rfl⟩ := List.mem_map.mp hfs
      exact (hrows row hrow).plain

/-- Every row is read back from its fields. -/
theorem mapM_readRow (hrows : ∀ row ∈ rows, Inserted row) :
    (rows.map fields).mapM readRow = some rows :=
  Lib.Delimited.mapM_map fun row hrow => (hrows row hrow).readRow_fields

/-- A file has the rows of one table only. -/
theorem fileText_injective {rows' : List PacketRow} (hrows : ∀ row ∈ rows, Inserted row)
    (hrows' : ∀ row ∈ rows', Inserted row) (h : fileText rows' = fileText rows) : rows' = rows := by
  -- only the empty table leaves the file empty: otherwise there is a header
  have hnil : ∀ {rs : List PacketRow}, (∀ row ∈ rs, Inserted row) → fileText rs = [] → rs = [] := by
    intro rs hrs hempty
    by_contra hne
    have hread := read_fileText hrs hne
    rw [hempty] at hread
    cases hread
  by_cases hne : rows = []
  · rw [hne] at h ⊢
    exact hnil hrows' h
  · have hne' : rows' ≠ [] := by
      intro hempty
      rw [hempty] at h
      exact hne (hnil hrows h.symm)
    have hread := read_fileText hrows' hne'
    rw [h, read_fileText hrows hne, List.cons.injEq] at hread
    have hrows'' := mapM_readRow hrows'
    rw [← hread.2, mapM_readRow hrows] at hrows''
    exact (Option.some.inj hrows'').symm

/-- **The export file determines the table.**  No line leaves its buffer.  The file of an empty
    table is empty; that of any other one, split at newlines and then at bars, has the names of
    the columns and then the texts of the columns of every row, from which the rows are read back.
    No other table has the same file. -/
theorem export_determines_table (hrows : ∀ row ∈ rows, Inserted row) :
    ∃ text, cmdExportFileExec sizeofCfg true true .ok rows = some ⟨0, some text⟩ ∧
      (rows = [] → text = []) ∧
      (rows ≠ [] → ∃ lines, Lib.Delimited.read newline bar text = columnNames :: lines ∧
        lines.map (List.map some) = rows.map (fun row => (values row).map columnText) ∧
        lines.mapM readRow = some rows) ∧
      ∀ rows', (∀ row ∈ rows', Inserted row) →
        cmdExportFileExec sizeofCfg true true .ok rows' = some ⟨0, some text⟩ → rows' = rows := by
  refine ⟨fileText rows, cmdExportFileExec_eq hrows, fun h => if_pos h, ?_, ?_⟩
  · intro hne
    refine ⟨rows.map fields, read_fileText hrows hne, ?_, mapM_readRow hrows⟩
    rw [List.map_map]
    exact List.map_congr_left fun row hrow => (hrows row hrow).map_columnText.symm
  · intro rows' hrows' hsame
    rw [cmdExportFileExec_eq hrows', Option.some.injEq, Exported.mk.injEq, Option.some.injEq]
      at hsame
    exact fileText_injective hrows hrows' hsame.2

/-- The row of a frame with two digits of payload. -/
def someRow : PacketRow :=
  ⟨.int 100, .int 0, .int 1, .int 1, .int 2048, .int 5, .int 0, .int 40, .int 1, .int 0, .int 64,
    .int 6, .int 0, .int 1, .int 1, .text [52, 70]⟩

/-- A table with one row twice. -/
theorem export_determines_table_two : Inserted someRow ∧
    ∃ text lines, cmdExportFileExec sizeofCfg true true .ok [someRow, someRow] =
        some ⟨0, some text⟩ ∧
      Lib.Delimited.read newline bar text = columnNames :: lines ∧
      lines.mapM readRow = some [someRow, someRow] := by
  have hpayload : HexPayload [52, 70] := by
    refine ⟨by decide, ?_⟩
    intro c hc
    rcases List.mem_pair.mp hc with rfl | rfl
    · exact ⟨4, rfl⟩
    · exact ⟨15, rfl⟩
  have hrow : Inserted someRow :=
    ⟨someCall, ⟨someHost, someHost, 2048, 5, 0, 40, 1, 0, 64, 6, 0, 9, 9, [52, 70]⟩, 1, 1, 1, 1,
      hpayload, rfl⟩
  have hrows : ∀ row ∈ [someRow, someRow], Inserted row := by
    intro row hmem
    rcases List.mem_pair.mp hmem with rfl | rfl
    · exact hrow
    · exact hrow
  obtain ⟨text, hexec, -, hlines, -⟩ := export_determines_table hrows
  obtain ⟨lines, hread, -, hback⟩ := hlines (by simp)
  exact ⟨hrow, text, lines, hexec, hread, hback⟩

end Niuchacz.ExportFile
