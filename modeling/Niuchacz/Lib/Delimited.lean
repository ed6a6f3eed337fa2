import Mathlib.Data.List.Basic

namespace Lib.Delimited

/-!
# Lines of separated fields

A table as text: the fields of a line have a separator in between, and every line is ended by a
terminator.  Nothing is quoted, so that neither of the two may occur in a field.

* `write`, `read` — the text of a table, and the table of a text.
* `intercalate_cons` — a line as a loop writes it, field by field.
* `mapM_map` — what is read back one by one is read back as a list.
* `read_write` — **round trip**, if the fields are free of both characters.
-/

variable {α : Type*} {newline sep : α}

/-- If every element is read back, the list is. -/
theorem mapM_map {β γ : Type*} {l : List β} {print : β → γ} {parse : γ → Option β}
    (h : ∀ b ∈ l, parse (print b) = some b) : (l.map print).mapM parse = some l := by
  induction l with
  | nil => rfl
  | cons b l ih =>
    rw [List.map_cons, List.mapM_cons, h b (by simp),
      ih fun c hc => h c (List.mem_cons_of_mem b hc)]
    rfl

/-- The text of a table. -/
def write (newline sep : α) (table : List (List (List α))) : List α :=
  table.flatMap fun fields => [sep].intercalate fields ++ [newline]

/-- The first field, and each of the others behind a separator. -/
theorem intercalate_cons (field : List α) (fields : List (List α)) :
    [sep].intercalate (field :: fields) = field ++ fields.flatMap (sep :: ·) := by
  induction fields generalizing field with
  | nil => simp
  | cons field' fields ih =>
    rw [List.intercalate_cons_cons, ih, List.flatMap_cons]
    simp

/-- A character of a joined line is the separator or comes from a field. -/
theorem mem_intercalate {fields : List (List α)} {a : α} (ha : a ∈ [sep].intercalate fields) :
    a = sep ∨ ∃ field ∈ fields, a ∈ field := by
  cases fields with
  | nil => simp at ha
  | cons field fields =>
    rw [intercalate_cons] at ha
    rcases List.mem_append.mp ha with ha | ha
    · exact Or.inr ⟨field, by simp, ha⟩
    · obtain ⟨field', hfield', ha⟩ := List.mem_flatMap.mp ha
      rcases List.mem_cons.mp ha with ha | ha
      · exact Or.inl ha
      · exact Or.inr ⟨field', by simp [hfield'], ha⟩

variable [DecidableEq α]

/-- The table of a text; behind the last terminator there is nothing. -/
def read (newline sep : α) (text : List α) : List (List (List α)) :=
  (text.splitOn newline).dropLast.map fun line => line.splitOn sep

/-- The characters that fields must not have. -/
def Plain (newline sep : α) (field : List α) : Prop := newline ∉ field ∧ sep ∉ field

/-- If fields have neither of the special characters, the lines of a written table are its joined
    rows, and an empty one behind the last line end. -/
theorem splitOn_write {table : List (List (List α))} (hne : newline ≠ sep)
    (hplain : ∀ fields ∈ table, ∀ field ∈ fields, Plain newline sep field) :
    (write newline sep table).splitOn newline =
      table.map ([sep].intercalate ·) ++ [[]] := by
  induction table with
  | nil => simp [write]
  | cons fields table ih =>
    have hline : newline ∉ [sep].intercalate fields := by
      intro hmem
      rcases mem_intercalate hmem with heq | ⟨field, hfield, hmem⟩
      · exact hne heq
      · exact (hplain fields (by simp) field hfield).1 hmem
    have hwrite : write newline sep (fields :: table) =
        [sep].intercalate fields ++ newline :: write newline sep table := by
      simp [write]
    rw [hwrite, List.splitOn_append_cons_self_of_not_mem hline,
      ih fun fs hfs => hplain fs (List.mem_cons_of_mem _ hfs), List.map_cons, List.cons_append]

/-- **Round trip.**  A table is read back from its text. -/
theorem read_write {table : List (List (List α))} (hne : newline ≠ sep)
    (hfields : ∀ fields ∈ table, fields ≠ [])
    (hplain : ∀ fields ∈ table, ∀ field ∈ fields, Plain newline sep field) :
    read newline sep (write newline sep table) = table := by
  rw [read, splitOn_write hne hplain, List.dropLast_concat, List.map_map]
  refine (List.map_congr_left ?_).trans (List.map_id table)
  intro fields hmem
  exact List.splitOn_intercalate sep (fun field hfield => (hplain fields hmem field hfield).2)
    (hfields fields hmem)

end Lib.Delimited
