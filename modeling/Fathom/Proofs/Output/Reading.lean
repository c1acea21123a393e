import Fathom.Command.Options
import Fathom.Proofs.Routing.Decoding

/-!
# Reading csv records back

`Csv.read?` reads a text by the rules of RFC 4180. Records end with a carriage return and a line
feed, the last one perhaps with the text; fields are separated by commas; a field may stand between
quotes, where a quote is written twice and commas and line breaks are text. Nothing else may contain
a quote or a line break, and nothing may follow the quote that ends a field. The reader takes one
character at a time, so what it has read of a field depends on what went before.

What `Csv.field` writes is read as one field, whatever it writes (`foldlM_fieldChars`). Of the
fields of a row only the name and the path are written by `Csv.field`; the others need no quotes,
for they are numbers, truth values and fixed words (`Row.fields_eq`).

Results:
* `read_record`: fields that are written as a record are read as that record;
* `Row.line_reads_back`: a row is read as one record of 18 fields.
-/

namespace Fathom

namespace Output

namespace Csv

/-! ## The reader -/

/-- Where a reader stands. -/
inductive Place
  /-- Before the first field of a record. -/
  | record
  /-- Before another field. -/
  | field
  /-- In a field without quotes. -/
  | bare
  /-- Between the quotes of a field. -/
  | quoted
  /-- After a quote that ends its field, unless another one follows. -/
  | closed
  /-- Between the two characters of a line break. -/
  | lineBreak
  deriving DecidableEq

/-- What has been read so far; lists have the newest item first. -/
structure Reader where
  place : Place
  /-- The characters of the field. -/
  text : List Char
  /-- The fields of the record that are complete. -/
  fields : List String
  /-- The records that are complete. -/
  records : List (List String)

namespace Reader

/-- Before the first character. -/
def start : Reader := ⟨.record, [], [], []⟩

/-- Takes a character into the field. -/
def take (r : Reader) (place : Place) (c : Char) : Reader := { r with place, text := c :: r.text }

/-- Ends the field. -/
def endField (r : Reader) : Reader :=
  { r with place := .field, text := [], fields := String.ofList r.text.reverse :: r.fields }

/-- Ends the field and the record. -/
def endRecord (r : Reader) : Reader :=
  ⟨.record, [], [], r.endField.fields.reverse :: r.records⟩

/-- Reads a character; none if it may not stand there. -/
def step (r : Reader) (c : Char) : Option Reader :=
  match r.place, c with
  | .quoted, '"' => some { r with place := .closed }
  | .quoted, c => some (r.take .quoted c)
  | .closed, '"' => some (r.take .quoted '"')
  | .lineBreak, '\n' => some r.endRecord
  | .lineBreak, _ => none
  | _, ',' => some r.endField
  | _, '\r' => some { r with place := .lineBreak }
  | _, '\n' => none
  | .closed, _ => none
  | .bare, '"' => none
  | _, '"' => some { r with place := .quoted }
  | _, c => some (r.take .bare c)

/-- The records, once the text has ended; none if it may not end there. -/
def finish (r : Reader) : Option (List (List String)) :=
  match r.place with
  | .record => some r.records.reverse
  | .quoted | .lineBreak => none
  | _ => some r.endRecord.records.reverse

end Reader

/-- The records of a text; none if the text is not csv. -/
def read? (text : String) : Option (List (List String)) := do
  (← text.toList.foldlM Reader.step Reader.start).finish

/-! ## Fields -/

open Reader

variable {r : Reader} {c : Char} {fields : List String}

/-- A field may end here. -/
def Place.EndsField (place : Place) : Prop := place ≠ .quoted ∧ place ≠ .lineBreak

theorem step_comma (h : r.place.EndsField) : step r ',' = some r.endField := by
  obtain ⟨place, text, fields, records⟩ := r
  cases place with
  | quoted => exact absurd rfl h.1
  | lineBreak => exact absurd rfl h.2
  | _ => rfl

/-- Text without special characters is read as it stands. -/
theorem foldlM_bare {text : List Char} (htext : text.any isSpecial = false)
    (hplace : r.place = .record ∨ r.place = .field ∨ r.place = .bare) :
    text.foldlM step r = some { r with
      place := if text = [] then r.place else .bare
      text := text.reverse ++ r.text } := by
  induction text generalizing r with
  | nil => simp
  | cons c text ih =>
    rw [List.any_cons, Bool.or_eq_false_iff] at htext
    have hstep : step r c = some (r.take .bare c) := by
      have hc := htext.1
      simp only [isSpecial, Bool.or_eq_false_iff, beq_eq_false_iff_ne] at hc
      unfold step
      rcases hplace with h | h | h <;> rw [h] <;> split <;> simp_all
    rw [List.foldlM_cons, hstep, Option.bind_eq_bind, Option.bind_some,
      ih htext.2 (.inr (.inr rfl))]
    simp [take]

/-- Between quotes, doubled quotes are read as one. -/
theorem foldlM_doubled (text : List Char) (hplace : r.place = .quoted) :
    (doubled text).foldlM step r = some { r with text := text.reverse ++ r.text } := by
  induction text generalizing r with
  | nil => simp [doubled]
  | cons c text ih =>
    have htake : (r.take .quoted c).place = .quoted := rfl
    by_cases hc : c = '"'
    · have hfirst : step r '"' = some { r with place := .closed } := by simp [step, hplace]
      have hsecond : step { r with place := .closed } '"' = some (r.take .quoted '"') := rfl
      subst hc
      simp only [doubled, if_true, List.foldlM_cons, hfirst, hsecond, Option.bind_eq_bind,
        Option.bind_some, ih htake]
      simp [take, hplace]
    · have hstep : step r c = some (r.take .quoted c) := by
        unfold step
        rw [hplace]
        split <;> simp_all
      simp only [doubled, if_neg hc, List.foldlM_cons, hstep, Option.bind_eq_bind,
        Option.bind_some, ih htake]
      simp [take, hplace]

/-- **A field is read as it was**, with or without quotes. -/
theorem foldlM_fieldChars (text : List Char) (hplace : r.place = .record ∨ r.place = .field)
    (hempty : r.text = []) : ∃ place, (fieldChars text).foldlM step r =
      some { r with place, text := text.reverse } ∧ place.EndsField ∧
        (place = .record → r.place = .record) := by
  unfold fieldChars
  by_cases hspecial : text.any isSpecial = true
  · have hopen : step r '"' = some { r with place := .quoted } := by
      unfold step
      rcases hplace with h | h <;> simp [h]
    have hclose : step { r with place := .quoted, text := text.reverse } '"' =
        some { r with place := .closed, text := text.reverse } := rfl
    refine ⟨.closed, ?_, ⟨nofun, nofun⟩, nofun⟩
    rw [if_pos hspecial, List.foldlM_cons, hopen, Option.bind_eq_bind, Option.bind_some,
      List.foldlM_append, foldlM_doubled text rfl]
    simp [hempty, hclose]
  · rw [if_neg hspecial, foldlM_bare (Bool.eq_false_iff.mpr hspecial)
      (hplace.imp_right Or.inl), hempty, List.append_nil]
    refine ⟨_, rfl, ?_⟩
    rcases hplace with h | h <;> by_cases htext : text = [] <;> simp [h, htext, Place.EndsField]

/-! ## Records -/

/-- The fields of a record are read one after the other. -/
theorem foldlM_intercalate {texts : List String} (hne : texts ≠ [])
    (hplace : r.place = .record ∨ r.place = .field) (hempty : r.text = []) :
    ∃ r', ([','].intercalate (texts.map fun text => fieldChars text.toList)).foldlM step r =
      some r' ∧ r'.place.EndsField ∧ r'.endField.fields = texts.reverse ++ r.fields ∧
        r'.records = r.records ∧ (r'.place = .record → r.place = .record ∧ texts.length = 1) := by
  induction texts generalizing r with
  | nil => exact absurd rfl hne
  | cons text texts ih =>
    obtain ⟨place, hfield, hends, hrecord⟩ := foldlM_fieldChars text.toList hplace hempty
    let r₁ : Reader := { r with place, text := text.toList.reverse }
    have hfields : r₁.endField.fields = text :: r.fields := by simp [r₁, endField]
    cases texts with
    | nil =>
      refine ⟨r₁, ?_, hends, hfields, rfl, fun h => ⟨hrecord h, rfl⟩⟩
      simpa using hfield
    | cons next texts =>
      obtain ⟨r', hrest, hends', hfields', hrecords, hrecord'⟩ :=
        ih (r := r₁.endField) (List.cons_ne_nil _ _) (.inr rfl) rfl
      have hcomma : [','].foldlM step r₁ = some r₁.endField := by
        rw [List.foldlM_cons, step_comma hends]
        rfl
      refine ⟨r', ?_, hends', ?_, hrecords, fun h => absurd (hrecord' h).1 nofun⟩
      · rw [List.map_cons, List.map_cons, List.intercalate_cons_cons, List.foldlM_append,
          List.foldlM_append, hfield, Option.bind_eq_bind, Option.bind_some, hcomma]
        exact hrest
      · rw [hfields', hfields]
        simp

/-- **Fields that are written as a record are read as that record.** A single field is left out, as
a record that consists of an empty one cannot be told from the end of the text. -/
theorem read_record (h : 2 ≤ fields.length) :
    read? (record (fields.map field)) = some [fields] := by
  have hchars : (record (fields.map field)).toList =
      [','].intercalate (fields.map fun text => fieldChars text.toList) := by
    simp [record, field, String.toList_intercalate, Function.comp_def]
  have hne : fields ≠ [] := by
    rintro rfl
    simp at h
  obtain ⟨r', hrun, hends, hfields, hrecords, hplace⟩ :=
    foldlM_intercalate (r := start) hne (.inl rfl) rfl
  have hfinish : r'.finish = some r'.endRecord.records.reverse := by
    obtain ⟨place, text, fields, records⟩ := r'
    cases place with
    | record =>
      have := (hplace rfl).2
      omega
    | quoted => exact absurd rfl hends.1
    | lineBreak => exact absurd rfl hends.2
    | _ => rfl
  rw [read?, hchars, hrun]
  simp only [Option.bind_eq_bind, Option.bind_some, hfinish, endRecord, hfields, hrecords]
  simp [start]

/-! ## Fields without quotes -/

/-- The text needs no quotes. -/
def Plain (text : String) : Prop := text.toList.any isSpecial = false

instance (text : String) : Decidable (Plain text) :=
  inferInstanceAs (Decidable (_ = false))

theorem Plain.field_eq {text : String} (h : Plain text) : field text = text := by
  rw [field, fieldChars, if_neg (Bool.eq_false_iff.mp h), String.ofList_toList]

theorem plain_append {a b : String} : Plain (a ++ b) ↔ Plain a ∧ Plain b := by
  simp [Plain, String.toList_append, Bool.or_eq_false_iff]

theorem isSpecial_of_isDigit (h : c.isDigit = true) : isSpecial c = false := by
  rw [isSpecial]
  simp only [Bool.or_eq_false_iff, beq_eq_false_iff_ne]
  refine ⟨⟨⟨?_, ?_⟩, ?_⟩, ?_⟩ <;> rintro rfl <;> simp at h

theorem plain_nat (n : Nat) : Plain (toString n) := by
  rw [Plain, Nat.toString_eq_repr, Nat.toList_repr, List.any_eq_false]
  intro c hc
  rw [isSpecial_of_isDigit (Nat.isDigit_of_mem_toDigits (by decide) (by decide) hc)]
  exact Bool.false_ne_true

theorem plain_int (i : Int) : Plain (toString i) := by
  cases i with
  | ofNat n => exact plain_nat n
  | negSucc n => exact plain_append.mpr ⟨by decide, plain_nat (n + 1)⟩

theorem plain_bool (b : Bool) : Plain (toString b) := by
  cases b <;> decide

theorem plain_zeroPadded (width n : Nat) : Plain (Text.zeroPadded width n) := by
  refine plain_append.mpr ⟨?_, plain_nat n⟩
  rw [Plain, String.toList_ofList, List.any_replicate]
  split <;> rfl

/-- Clocks are written without special characters. -/
theorem plain_fixed (places : Nat) (x : Text.Double) : Plain (x.fixed places) := by
  have hsign : ∀ negative, Plain (Text.Double.sign negative) := by decide
  cases x with
  | nan => exact (by decide : Plain "NaN")
  | infinite negative => exact plain_append.mpr ⟨hsign negative, by decide⟩
  | finite negative units =>
    simp only [Text.Double.fixed, plain_append]
    exact ⟨⟨⟨hsign negative, plain_nat _⟩, by decide⟩, plain_zeroPadded _ _⟩

end Csv

/-! ## Rows -/

/-- The texts of the fields of a row, given those of its clocks. -/
def Row.texts (row : Row) (clock cpu : String) : List String :=
  let s := row.settings
  [s.name, toString s.size, s.form, s.infer, s.relax, s.ordering, toString s.width,
    toString s.batch, toString s.workers, toString s.maxMillis, toString s.maxNodes, clock, cpu,
    toString row.primal, toString row.optimal, toString row.nodes, toString row.fails,
    " ".intercalate row.path]

/-- The settings that are words are those that stand for options. -/
structure Settings.Worded (s : Settings) : Prop where
  form : s.form ∈ ["sequential", "successor"]
  infer : s.infer ∈ ["none", "ap"]
  relax : s.relax ∈ ["none", "dd"]
  ordering : s.ordering ∈ ["none", "greedy", "input", "regret"]

end Output

namespace Command

/-- **The options of a run are put in these words.** -/
theorem Options.worded (o : Options) (P : Routing.Instance) : (o.settings P).Worded := by
  constructor
  · cases hform : o.form <;> simp [settings, hform]
  · cases hinfer : o.infer <;> simp [settings, hinfer]
  · cases hrelax : o.relax <;> simp [settings, hrelax]
  · rcases hrule : o.rule with _ | _ | _ | _ <;> simp [settings, hrule]

end Command

namespace Output

variable {row : Row} {clock cpu : String}

/-- **Of the fields of a row, only the name and the path may need quotes.** -/
theorem Row.fields_eq (h : row.settings.Worded) (hclock : Csv.Plain clock) (hcpu : Csv.Plain cpu) :
    row.fields clock cpu = (row.texts clock cpu).map Csv.field := by
  have hform : Csv.Plain row.settings.form :=
    (by decide : ∀ word ∈ ["sequential", "successor"], Csv.Plain word) _ h.form
  have hinfer : Csv.Plain row.settings.infer :=
    (by decide : ∀ word ∈ ["none", "ap"], Csv.Plain word) _ h.infer
  have hrelax : Csv.Plain row.settings.relax :=
    (by decide : ∀ word ∈ ["none", "dd"], Csv.Plain word) _ h.relax
  have hordering : Csv.Plain row.settings.ordering :=
    (by decide : ∀ word ∈ ["none", "greedy", "input", "regret"], Csv.Plain word) _ h.ordering
  simp only [Row.fields, Row.texts, List.map_cons, List.map_nil, hform.field_eq, hinfer.field_eq,
    hrelax.field_eq, hordering.field_eq, hclock.field_eq, hcpu.field_eq,
    (Csv.plain_nat _).field_eq, (Csv.plain_int _).field_eq, (Csv.plain_bool _).field_eq]

/-- **A csv row reads back.** The line of a row is read as one record of 18 fields, the first of
them the name of the instance, the fourteenth the cost of the route in decimals and the last one the
labels of the route with a blank between them, whatever characters name and labels have. -/
theorem Row.line_reads_back (header : Bool) (row : Row) (clock cpu : Text.Double)
    (h : row.settings.Worded) :
    let fields := row.texts (clock.fixed 10) (cpu.fixed 10)
    (∃ line, row.line (.csv header) clock cpu = some line ∧ Csv.read? line = some [fields]) ∧
      fields.length = 18 ∧ fields[0]? = some row.settings.name ∧
      fields[13]? = some (toString row.primal) ∧
      fields[17]? = some (" ".intercalate row.path) := by
  have hfields := Row.fields_eq h (Csv.plain_fixed 10 clock) (Csv.plain_fixed 10 cpu)
  refine ⟨⟨_, rfl, ?_⟩, rfl, rfl, rfl, rfl⟩
  rw [hfields]
  exact Csv.read_record (by decide : 2 ≤ 18)

/-- The options of a run by successors. -/
def quotedOptions : Command.Options :=
  ⟨.standardInput, .successor, some .regret, true, false, 3, 1, 2, 0, 0, some true, 0⟩

/-- A name that ends in a quote and a line break, and labels that are made of commas and quotes. -/
def quotedRow : Row where
  settings := quotedOptions.settings { Routing.Instance.dearReturn with name := "a, \"b\"\r\n" }
  primal := -7
  optimal := true
  nodes := 12
  fails := 3
  path := ["+0", "\"+1\"", ",", "", "-0"]

/-- Every character comes back. -/
theorem quotedRow_reads_back : quotedRow.settings.Worded ∧
    ∃ line, quotedRow.line (.csv true) (.infinite true) .nan = some line ∧
      line = "\"a, \"\"b\"\"\r\n\",6,successor,ap,none,regret,3,1,2,0,0,-inf,NaN,-7,true,12,3," ++
        "\"+0 \"\"+1\"\" ,  -0\"" ∧
      Csv.read? line = some [["a, \"b\"\r\n", "6", "successor", "ap", "none", "regret", "3", "1",
        "2", "0", "0", "-inf", "NaN", "-7", "true", "12", "3", "+0 \"+1\" ,  -0"]] := by
  have hworded : quotedRow.settings.Worded := quotedOptions.worded _
  obtain ⟨⟨line, hline, hread⟩, -⟩ :=
    Row.line_reads_back true quotedRow (.infinite true) .nan hworded
  have htexts : quotedRow.texts
      (Text.Double.fixed 10 (.infinite true)) (Text.Double.fixed 10 .nan) =
      ["a, \"b\"\r\n", "6", "successor", "ap", "none", "regret", "3", "1",
        "2", "0", "0", "-inf", "NaN", "-7", "true", "12", "3", "+0 \"+1\" ,  -0"] := by
    decide
  refine ⟨hworded, line, hline, ?_, hread.trans (by rw [htexts])⟩
  rw [← Option.some_inj, ← hline]
  decide +kernel

end Output

end Fathom
