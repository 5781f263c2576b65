import KaduoxSsh.Hosts.Toml

/-!
# Documents

What an encoder means to write: the fields of the root and, for each table, its
kind and its fields, a field without a value being left out. Reading the lines of
a document gives its tables back, with the numbers of the lines they begin at.
-/

namespace KaduoxSsh.Hosts.Toml

open Text Result List SortedMap

/-! ## Texts of lines -/

/-- Lines one after the other, each with its line feed. -/
def unlines (ls : List (List Char)) : List Char := ls.flatMap (· ++ ['\n'])

theorem unlines_append (ls ls' : List (List Char)) :
    unlines (ls ++ ls') = unlines ls ++ unlines ls' :=
  flatMap_append

/-- The lines that reading gives back as they are. -/
def IsLine (l : List Char) : Prop := '\n' ∉ l ∧ l.getLast? ≠ some '\r'

theorem splitInclusive_append {l : List Char} (h : '\n' ∉ l) (rest : List Char) :
    splitInclusive (l ++ '\n' :: rest) = (l ++ ['\n']) :: splitInclusive rest := by
  induction l with
  | nil => rfl
  | cons c l ih =>
      obtain ⟨hc, hl⟩ := ne_and_not_mem_of_not_mem_cons h
      rw [cons_append, splitInclusive, if_neg (Ne.symm hc), ih hl]
      rfl

theorem chomp_concat {l : List Char} (h : l.getLast? ≠ some '\r') : chomp (l ++ ['\n']) = l := by
  rw [chomp, reverse_append, reverse_singleton, singleton_append]
  split
  · next rest heq =>
      rw [List.cons.injEq] at heq
      rw [← List.head?_reverse, heq.2] at h
      exact absurd rfl h
  · next rest _ heq =>
      rw [← (List.cons.injEq _ _ _ _).mp heq |>.2, reverse_reverse]
  · next hno => exact absurd rfl (hno _)

/-- Lines that are written are read as the same lines. -/
theorem lines_unlines {ls : List (List Char)} (h : ∀ l ∈ ls, IsLine l) : lines (unlines ls) = ls := by
  induction ls with
  | nil => rfl
  | cons l ls ih =>
      have hl := h l mem_cons_self
      rw [lines, unlines, flatMap_cons, append_assoc, singleton_append,
        splitInclusive_append hl.1, map_cons, chomp_concat hl.2]
      rw [← unlines, ← lines, ih fun l' hl' ↦ h l' (mem_cons_of_mem l hl')]

theorem newline_notMem_quoted (value : String) : '\n' ∉ quoted value := by
  have hescape (c : Char) : '\n' ∉ escapeChar c := by
    rw [escapeChar]
    split_ifs <;> simp_all [eq_comm]
  simp [quoted, hescape]

theorem newline_notMem_render (value : Value) : '\n' ∉ render value := by
  cases value with
  | string value => exact newline_notMem_quoted value
  | integer value =>
      intro h
      exact absurd (isDigit_of_mem_repr h) (by decide)
  | strings values =>
      have hlist : '\n' ∉ [',', ' '].intercalate (values.map quoted) := by
        induction values with
        | nil => simp
        | cons value values ih =>
            cases values with
            | nil => simpa using newline_notMem_quoted value
            | cons next values =>
                rw [map_cons, map_cons, intercalate_cons_cons, ← map_cons,
                  mem_append, mem_append]
                rintro ((h | h) | h)
                · exact newline_notMem_quoted value h
                · exact absurd h (by decide)
                · exact ih h
      simpa [render] using hlist

theorem isLine_fieldLine {key : String} (hkey : IsKey key) (value : Value) :
    IsLine (fieldLine key value) := by
  constructor
  · rw [fieldLine, mem_append, mem_append]
    rintro ((h | h) | h)
    · exact absurd (hkey.2 _ h) (by decide)
    · exact absurd h (by decide)
    · exact newline_notMem_render value h
  · rw [fieldLine, List.getLast?_append_of_ne_nil _ (render_ne_nil value)]
    intro h
    exact absurd ((trimmed_render value).2 _ h) (by decide)

/-! ## Documents -/

/-- The fields of a table in the order in which they are written. One without a value is left
out. -/
abbrev Fields := List (String × Option Value)

namespace Fields

def lines (fields : Fields) : List (List Char) :=
  fields.filterMap fun field ↦ field.2.map (fieldLine field.1)

/-- The value of a key. -/
def lookup (key : String) : Fields → Option Value
  | [] => none
  | (k, value) :: fields => if key = k then value.or (lookup key fields) else lookup key fields

/-- The fields, as a table holds them. -/
def toMap : Fields → SortedMap String Value
  | [] => .empty
  | (key, some value) :: fields => (toMap fields).insert key value
  | (_, none) :: fields => toMap fields

/-- A table with some more fields. -/
def insertAll : Fields → SortedMap String Value → SortedMap String Value
  | [], values => values
  | (key, some value) :: fields, values => insertAll fields (values.insert key value)
  | (_, none) :: fields, values => insertAll fields values

/-- The fields of all keys but one. -/
def without (key : String) (fields : Fields) : Fields := fields.filter fun field ↦ field.1 ≠ key
theorem get?_toMap (fields : Fields) (key : String) : (toMap fields).get? key = lookup key fields := by
  induction fields with
  | nil => rfl
  | cons field fields ih =>
      obtain ⟨k, value⟩ := field
      cases value with
      | none => rw [toMap, lookup, ih, Option.none_or, ite_self]
      | some value => rw [toMap, lookup, get?_insert, ih, Option.some_or]

theorem lookup_without (fields : Fields) (key k : String) :
    lookup k (without key fields) = if k = key then none else lookup k fields := by
  induction fields with
  | nil => rw [without, filter_nil, lookup, ite_self]
  | cons field fields ih =>
      obtain ⟨k', value⟩ := field
      rw [without] at ih ⊢
      by_cases h : k' = key
      · rw [filter_cons_of_neg (by simpa using h), ih, lookup]
        split_ifs with hk hk'
        · rfl
        · exact absurd (hk'.trans h) hk
        · rfl
      · rw [filter_cons_of_pos (by simpa using h), lookup, lookup, ih]
        split_ifs with hk' hk hk
        · exact absurd (hk'.symm.trans hk) h
        · rfl
        · rfl
        · rfl

theorem erase_toMap (fields : Fields) (key : String) :
    (toMap fields).erase key = toMap (without key fields) := by
  apply ext_get?
  intro k
  rw [get?_erase, get?_toMap, get?_toMap, lookup_without]

/-- What is asked of the fields of a table so that they can be read back. -/
structure WellFormed (fields : Fields) : Prop where
  isKey : ∀ key ∈ fields.map Prod.fst, IsKey key
  nodup : (fields.map Prod.fst).Nodup
  readable : ∀ field ∈ fields, ∀ value ∈ field.2, value.Readable

variable {fields : Fields}

theorem WellFormed.of_cons {field : String × Option Value} (h : WellFormed (field :: fields)) :
    WellFormed fields where
  isKey := fun key hkey ↦ h.isKey key (mem_cons_of_mem field.1 hkey)
  nodup := (nodup_cons.mp h.nodup).2
  readable := fun f hf ↦ h.readable f (mem_cons_of_mem field hf)

theorem lookup_eq_none {key : String} (h : key ∉ fields.map Prod.fst) :
    lookup key fields = none := by
  induction fields with
  | nil => rfl
  | cons field fields ih =>
      obtain ⟨hkey, hrest⟩ := ne_and_not_mem_of_not_mem_cons h
      rw [lookup, if_neg hkey, ih hrest]

/-- A field is what was inserted last, or what was there before. -/
theorem get?_insertAll (h : (fields.map Prod.fst).Nodup) (values : SortedMap String Value)
    (key : String) :
    (insertAll fields values).get? key = (lookup key fields).or (values.get? key) := by
  induction fields generalizing values with
  | nil => rfl
  | cons field fields ih =>
      obtain ⟨k, value⟩ := field
      obtain ⟨hk, hfields⟩ := nodup_cons.mp h
      cases value with
      | none => rw [insertAll, ih hfields, lookup, Option.none_or, ite_self]
      | some value =>
          rw [insertAll, ih hfields, lookup, get?_insert, Option.some_or]
          split_ifs with hkey
          · rw [hkey, lookup_eq_none hk, Option.none_or, Option.some_or]
          · rfl

theorem WellFormed.insertAll_empty (h : WellFormed fields) :
    insertAll fields .empty = toMap fields := by
  apply ext_get?
  intro key
  rw [get?_insertAll h.nodup, get?_toMap, get?_empty, Option.or_none]

end Fields

namespace Document

theorem readLines_append (document : Document) (lineNo : Nat) (ls ls' : List (List Char)) :
    document.readLines lineNo (ls ++ ls') =
      (document.readLines lineNo ls >>= fun next ↦ next.readLines (lineNo + ls.length) ls') := by
  induction ls generalizing document lineNo with
  | nil => rfl
  | cons l ls ih =>
      rw [cons_append, readLines, readLines]
      cases document.readLine lineNo l with
      | error e => rfl
      | ok next =>
          rw [bind_ok, bind_ok, ih, length_cons, Nat.add_right_comm,
            Nat.add_assoc]

@[simp] theorem values_setValues (document : Document) (values : SortedMap String Value) :
    (document.setValues values).values = values := by
  cases h : document.current with
  | none => simp [setValues, Document.values, h]
  | some table => simp [setValues, Document.values, h]

theorem setValues_values (document : Document) :
    document.setValues document.values = document := by
  obtain ⟨root, tables, current⟩ := document
  cases current <;> rfl
@[simp] theorem setValues_setValues (document : Document) (values values' : SortedMap String Value) :
    (document.setValues values).setValues values' = document.setValues values' := by
  cases h : document.current with
  | none => simp [setValues, h]
  | some table => simp [setValues, h]

theorem readLine_fieldLine {key : String} (hkey : IsKey key) {value : Value}
    (hvalue : value.Readable) {document : Document} (hnew : document.values.get? key = none)
    (lineNo : Nat) :
    document.readLine lineNo (fieldLine key value) =
      .ok (document.setValues (document.values.insert key value)) := by
  rw [readLine, stripComment_fieldLine hkey, context, bind_ok]
  simp only [trim_fieldLine hkey, fieldLine_ne_nil hkey, if_false, parseHeader_fieldLine hkey,
    bind_ok]
  rw [assign, parseAssignment_fieldLine hkey, parseValue_render hvalue]
  simp [context, SortedMap.contains, hnew]

/-- The lines of fields that are not there yet are read as those fields. -/
theorem readLines_fields {fields : Fields} (h : fields.WellFormed) {document : Document}
    (hnew : ∀ key ∈ fields.map Prod.fst, document.values.get? key = none) (lineNo : Nat) :
    document.readLines lineNo fields.lines =
      .ok (document.setValues (fields.insertAll document.values)) := by
  induction fields generalizing document lineNo with
  | nil =>
      rw [Fields.insertAll, setValues_values]
      rfl
  | cons field fields ih =>
      obtain ⟨key, value⟩ := field
      obtain ⟨hkey, hrest⟩ := nodup_cons.mp h.nodup
      cases value with
      | none =>
          rw [Fields.insertAll, ← ih h.of_cons
            (fun k hk ↦ hnew k (mem_cons_of_mem key hk)) lineNo]
          rfl
      | some value =>
          have hread := readLine_fieldLine (h.isKey key mem_cons_self)
            (h.readable _ mem_cons_self value rfl) (hnew key mem_cons_self) lineNo
          have hline : Fields.lines ((key, some value) :: fields) =
            fieldLine key value :: Fields.lines fields := rfl
          rw [hline, readLines, hread, bind_ok, ih h.of_cons, values_setValues,
            setValues_setValues, Fields.insertAll]
          intro k hk
          have hne : k ≠ key := by
            rintro rfl
            exact hkey hk
          rw [values_setValues, get?_insert_of_ne _ _ hne]
          exact hnew k (mem_cons_of_mem key hk)

/-! ### Tables -/

/-- The header of a table. -/
def header : TableKind → List Char
  | .host => "[[host]]".toList
  | .chain => "[[chain]]".toList
  | .hop => "[[hop]]".toList

/-- The lines of a table: an empty one, the header and the fields. -/
def tableLines (table : TableKind × Fields) : List (List Char) :=
  [] :: header table.1 :: table.2.lines

/-- What a table says, apart from where it stands. -/
def content (table : Table) : TableKind × SortedMap String Value := (table.kind, table.values)

theorem readLine_blank (document : Document) (lineNo : Nat) :
    document.readLine lineNo [] = .ok document := rfl

theorem readLine_header (document : Document) (lineNo : Nat) (kind : TableKind) :
    document.readLine lineNo (header kind) = .ok { document with
      tables := document.close, current := some ⟨kind, lineNo, .empty⟩ } := by
  cases kind <;> rfl

/-- The lines of a table are read as one more table. -/
theorem readLines_table {fields : Fields} (h : fields.WellFormed) (kind : TableKind)
    (document : Document) (lineNo : Nat) :
    document.readLines lineNo (tableLines (kind, fields)) = .ok { document with
      tables := document.close, current := some ⟨kind, lineNo + 1, fields.toMap⟩ } := by
  rw [tableLines, readLines, readLine_blank, bind_ok, readLines, readLine_header,
    bind_ok, readLines_fields h fun key _ ↦ rfl]
  simp only [setValues, Document.values, h.insertAll_empty]

/-- The lines of some tables are read as those tables, behind those that were read before. -/
theorem readLines_tables {tables : List (TableKind × Fields)}
    (h : ∀ table ∈ tables, table.2.WellFormed) (document : Document) (lineNo : Nat) :
    ∃ result, document.readLines lineNo (tables.flatMap tableLines) = .ok result ∧
      result.root = document.root ∧
      result.close.map content =
        document.close.map content ++ tables.map fun table ↦ (table.1, table.2.toMap) := by
  induction tables generalizing document lineNo with
  | nil => exact ⟨document, rfl, rfl, by simp⟩
  | cons table tables ih =>
      obtain ⟨kind, fields⟩ := table
      obtain ⟨result, hresult, hroot, hclose⟩ := ih
        (fun t ht ↦ h t (mem_cons_of_mem _ ht))
        { document with
          tables := document.close, current := some ⟨kind, lineNo + 1, fields.toMap⟩ }
        (lineNo + (tableLines (kind, fields)).length)
      refine ⟨result, ?_, hroot, ?_⟩
      · rw [flatMap_cons, readLines_append, readLines_table (h _ mem_cons_self),
          bind_ok, hresult]
      · rw [hclose]
        simp [close, content]

/-- A line that cannot be read stops the reading, whatever stands before it. -/
theorem readLines_ne_ok {bad : List Char}
    (h : ∀ (document result : Document) (lineNo : Nat), document.readLine lineNo bad ≠ .ok result)
    {ls : List (List Char)} (hmem : bad ∈ ls) (document result : Document) (lineNo : Nat) :
    document.readLines lineNo ls ≠ .ok result := by
  induction ls generalizing document lineNo with
  | nil => cases hmem
  | cons l ls ih =>
      intro hread
      rw [readLines, bind_eq_ok] at hread
      obtain ⟨next, hline, hrest⟩ := hread
      rcases mem_cons.mp hmem with rfl | hmem
      · exact h document next lineNo hline
      · exact ih hmem next (lineNo + 1) hrest

/-- A text that is not readable makes its line unreadable. -/
theorem readLine_string_ne_ok {key value : String} (hkey : IsKey key) (hvalue : ¬Readable value)
    (document result : Document) (lineNo : Nat) :
    document.readLine lineNo (fieldLine key (.string value)) ≠ .ok result := by
  rw [readLine, stripComment_fieldLine hkey, context, bind_ok]
  simp only [trim_fieldLine hkey, fieldLine_ne_nil hkey, if_false, parseHeader_fieldLine hkey,
    bind_ok]
  rw [assign, parseAssignment_fieldLine hkey]
  intro h
  obtain ⟨pair, hpair, -⟩ := bind_eq_ok.mp h
  obtain ⟨read, hread, -⟩ := bind_eq_ok.mp (context_eq_ok.mp hpair)
  exact hvalue (readable_of_parseValue hread)

end Document

/-! ## What a line says -/

/-- What a line says, whatever has been read before it. -/
inductive LineContent where
  | blank
  | header (kind : TableKind)
  | assignment (key : String) (value : Value)
deriving DecidableEq

def lineContent (rawLine : List Char) : Result LineContent := do
  let line := trim (← stripComment rawLine)
  if line = [] then return .blank
  else
    match ← parseHeader line with
    | some kind => return .header kind
    | none => do
        let (key, value) ← parseAssignment line
        return .assignment key value

/-- The document with one more line, unless the line sets a field again. -/
def Document.extend (document : Document) (lineNo : Nat) : LineContent → Option Document
  | .blank => some document
  | .header kind => some { document with
      tables := document.close, current := some ⟨kind, lineNo, .empty⟩ }
  | .assignment key value =>
      if document.values.contains key then none
      else some (document.setValues (document.values.insert key value))

/-- A line is read for what it says by itself. -/
theorem Document.readLine_eq_ok_iff {document next : Document} {lineNo : Nat}
    {rawLine : List Char} :
    document.readLine lineNo rawLine = .ok next ↔
      ∃ content, lineContent rawLine = .ok content ∧
        document.extend lineNo content = some next := by
  rw [readLine, lineContent]
  cases hline : stripComment rawLine with
  | error e => simp [context]
  | ok line =>
      rw [context, bind_ok, bind_ok]
      by_cases hempty : trim line = []
      · simp [hempty, extend]
      rw [if_neg hempty, if_neg hempty]
      cases hheader : parseHeader (trim line) with
      | error e => simp
      | ok found =>
          rw [bind_ok, bind_ok]
          cases found with
          | some kind => simp [extend]
          | none =>
              simp only
              rw [assign]
              cases hassignment : parseAssignment (trim line) with
              | error e => simp [context]
              | ok pair =>
                  obtain ⟨key, value⟩ := pair
                  simp only [context, bind_ok, pure_eq_ok, Except.ok.injEq,
                    exists_eq_left', extend]
                  split <;> simp

end KaduoxSsh.Hosts.Toml
