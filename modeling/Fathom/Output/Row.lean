import Fathom.Cost
import Fathom.Output.Csv
import Fathom.Text.Fixed

/-!
# Reporting improving routes

Each improving route, and at the end the optimal one, makes one row: the settings of the run, the
counters of the search and the route. Rows are written as cells of a table or as csv records, after
a header if the format has one.
-/

namespace Fathom.Output

/-- How rows are written. -/
inductive Format
  /-- Not at all. -/
  | quiet
  | table
  | csv (header : Bool)
  deriving DecidableEq, Repr

/-- The settings of a run, repeated on every row. -/
structure Settings where
  name : String
  /-- The number of nodes of the instance. -/
  size : Nat
  form : String
  infer : String
  relax : String
  ordering : String
  width : Nat
  batch : Nat
  workers : Nat
  maxMillis : Nat
  maxNodes : Nat

/-- What a row says, the clocks apart. -/
structure Row where
  settings : Settings
  /-- The cost of the route. -/
  primal : Int
  optimal : Bool
  nodes : Nat
  fails : Nat
  /-- The labels of the route. -/
  path : List String

/-! ## Tables -/

/-- A cell of a table. -/
structure Cell where
  width : Nat
  text : String

/-- The cells side by side, each filled up to its width but for the last. -/
def tableLine : List Cell → String
  | [] => ""
  | [cell] => cell.text
  | cell :: more => Text.padRight cell.width cell.text ++ tableLine more

/-- The widths of the cells of a table. -/
def widths : List Nat := [16, 7, 12, 7, 7, 10, 10, 7, 9, 9, 9, 10, 9, 10, 10]

/-- The texts as cells of a table. -/
def cells (texts : List String) : List Cell := List.zipWith Cell.mk widths texts

/-- The titles of the columns of a table. -/
def tableTitles : List String :=
  ["instance", "size", "form", "infer", "relax", "ordering", "width", "batch", "workers",
    "clock", "cpu", "primal", "optimal", "nodes", "fails"]

/-- The titles, with a rule below them. -/
def tableHeader : String :=
  let titles := tableLine (cells tableTitles)
  titles ++ "\n" ++ String.ofList (List.replicate titles.length '=')

/-- The cells of a row, given the texts of its clocks. -/
def Row.cells (row : Row) (clock cpu : String) : List Cell :=
  let s := row.settings
  Output.cells [
    s.name, toString s.size, s.form, s.infer, s.relax, s.ordering, toString s.width,
    toString s.batch, toString s.workers, clock, cpu, toString row.primal,
    toString row.optimal, toString row.nodes, toString row.fails]

/-! ## Csv -/

/-- The titles of the fields of a record. -/
def csvTitles : List String :=
  ["instance", "size", "form", "infer", "relax", "ordering", "width", "batch", "workers",
    "maxmillis", "maxnodes", "clock", "cpu", "primal", "optimal", "nodes", "fails", "path"]

/-- The fields of a row as they are written, given the texts of its clocks. -/
def Row.fields (row : Row) (clock cpu : String) : List String :=
  let s := row.settings
  [Csv.field s.name, toString s.size, s.form, s.infer, s.relax, s.ordering, toString s.width,
    toString s.batch, toString s.workers, toString s.maxMillis, toString s.maxNodes, clock, cpu,
    toString row.primal, toString row.optimal, toString row.nodes, toString row.fails,
    Csv.field (" ".intercalate row.path)]

/-! ## Lines -/

/-- The line or lines before the first row. -/
def Format.header : Format → Option String
  | quiet => none
  | table => some tableHeader
  | csv false => none
  | csv true => some (Csv.record csvTitles)

/-- The line of a row, with its clocks in seconds. -/
def Row.line (format : Format) (row : Row) (clock cpu : Text.Double) : Option String :=
  match format with
  | .quiet => none
  | .table => some (tableLine (row.cells (clock.fixed 3) (cpu.fixed 3)))
  | .csv _ => some (Csv.record (row.fields (clock.fixed 10) (cpu.fixed 10)))

end Fathom.Output
