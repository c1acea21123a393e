import Fathom.Cost

/-!
# The assignment problem

`Assignment.solve` gives each row of a square cost matrix a column of its own so that the total cost
is least, by the Hungarian method. It places the rows one after the other: a row searches for the
cheapest alternating path to a free column, measured in reduced costs, and the matching is changed
along that path. The row and column duals it leaves are an optimal dual solution, so the reduced
cost of an arc tells by how much the total grows if the arc is forced.

All arithmetic is checked, and so is every index: rows may be longer than needed, but not shorter.
-/

namespace Fathom.Routing

/-- An assignment problem and its last solution. -/
structure Assignment where
  costs : Array (Array Int)
  rowDuals : List Int
  columnDuals : List Int
  /-- The column given to each row. -/
  columns : List Nat
  /-- The total cost. -/
  value : Int

namespace Assignment

/-- The entry of a list, or the fault of reading outside it. -/
def entry {α : Type} (items : List α) (i : Nat) : Except Fault α :=
  match items[i]? with
  | some a => .ok a
  | none => .error .outOfBounds

/-- The cost of an arc. -/
def cell (costs : Array (Array Int)) (i j : Nat) : Except Fault Int :=
  match costs[i]? with
  | none => .error .outOfBounds
  | some row =>
    match row[j]? with
    | none => .error .outOfBounds
    | some c => .ok c

/-! ## Placing one row -/

/-- What the method knows of a column. Column zero is no column of the matrix but the entry, which
holds the row to be placed. -/
structure Column where
  /-- The row matched with the column. -/
  row : Option Nat
  dual : Int
  /-- The column before this one on the cheapest path to it. -/
  via : Nat
  /-- The length of the cheapest path to it. -/
  slack : Int
  /-- The cheapest path to it is final. -/
  reached : Bool

/-- The duals of the rows, and the columns, the entry first. -/
structure Tableau where
  rowDuals : List Int
  columns : List Column

namespace Tableau

/-- No row has been placed. -/
def start (n : Nat) : Tableau :=
  ⟨List.replicate n 0, List.replicate (n + 1) ⟨none, 0, 0, Cost.greatest, false⟩⟩

/-- Puts a row at the entry and forgets all paths. -/
def enter (t : Tableau) (row : Nat) : Tableau :=
  { t with
    columns := (t.columns.map fun c => { c with slack := Cost.greatest, reached := false }).modify 0
      fun c => { c with row := some row } }

/-- Shortens the path to a column, where the arc from `row` into it makes one through the column
`last`. -/
def offer (costs : Array (Array Int)) (row : Nat) (rowDual : Int) (last : Nat)
    (c : Column) (j : Nat) : Except Fault Column :=
  if c.reached then .ok c
  else do
    let reduced ← Cost.sub (← Cost.sub (← cell costs row (j - 1)) rowDual) c.dual
    pure (if reduced < c.slack then { c with slack := reduced, via := last } else c)

/-- The least slack of a column that is not reached yet, and the first such column; the entry if
there is none below the greatest cost. -/
def nearest (columns : List Column) : Int × Nat :=
  columns.zipIdx.foldl
    (fun least (c, j) => if !c.reached && decide (c.slack < least.1) then (c.slack, j) else least)
    (Cost.greatest, 0)

/-- Adds to the dual of a row. -/
def raise (delta : Int) (rowDuals : List Int) (c : Column) : Except Fault (List Int) :=
  match c.reached, c.row with
  | true, some row => do
    let dual ← Cost.add (← entry rowDuals row) delta
    pure (rowDuals.set row dual)
  | _, _ => .ok rowDuals

/-- Moves the duals by `delta`: reached columns go down, the others come nearer. -/
def lower (delta : Int) (c : Column) : Except Fault Column :=
  if c.reached then do
    let dual ← Cost.sub c.dual delta
    pure { c with dual }
  else do
    let slack ← Cost.sub c.slack delta
    pure { c with slack }

/-- Marks the column `last`, which is matched with `row`, as reached, looks at the arcs of that row,
and moves the duals until the nearest column is reached by an arc of reduced cost zero. -/
def widen (costs : Array (Array Int)) (t : Tableau) (last row : Nat) :
    Except Fault (Tableau × Nat) := do
  let columns := t.columns.modify last fun c => { c with reached := true }
  let rowDual ← entry t.rowDuals row
  let columns ← columns.zipIdx.mapM fun (c, j) => offer costs row rowDual last c j
  let (delta, next) := nearest columns
  let rowDuals ← columns.foldlM (raise delta) t.rowDuals
  let columns ← columns.mapM (lower delta)
  pure (⟨rowDuals, columns⟩, next)

/-- Widens the search from the column `last` until it comes to a free column. -/
def search (costs : Array (Array Int)) : Nat → Tableau → Nat → Except Fault (Tableau × Nat)
  | 0, _, _ => .error .unfinished
  | fuel + 1, t, last =>
    match t.columns[last]?.bind Column.row with
    | none => .ok (t, last)
    | some row => do
      let (t, next) ← t.widen costs last row
      search costs fuel t next

/-- Passes the rows along the path that ends in the column `last`, up to the entry. -/
def augment : Nat → List Column → Nat → Except Fault (List Column)
  | 0, _, _ => .error .unfinished
  | fuel + 1, columns, last => do
    let via := (← entry columns last).via
    let row := (← entry columns via).row
    let columns := columns.modify last fun c => { c with row }
    if via = 0 then pure columns else augment fuel columns via

/-- Places a row. A search meets each column once and may come back to the entry after each, hence
the fuel. -/
def place (costs : Array (Array Int)) (t : Tableau) (row : Nat) : Except Fault Tableau := do
  let n := t.rowDuals.length
  let (t, last) ← (t.enter row).search costs (2 * n + 3) 0
  let columns ← augment (n + 1) t.columns last
  pure { t with columns }

end Tableau

/-! ## Solving -/

/-- Gives the row of a column that column. -/
def record (columns : List Nat) (c : Column × Nat) : Except Fault (List Nat) :=
  match c.1.row with
  | none => .error .overflow
  | some row => if row < columns.length then .ok (columns.set row c.2) else .error .outOfBounds

/-- Computes an optimal assignment and optimal duals for the present costs. -/
def solve (a : Assignment) : Except Fault Assignment := do
  let n := a.costs.size
  let t ← (List.range n).foldlM (Tableau.place a.costs) (Tableau.start n)
  let matched := t.columns.tail
  let columns ← matched.zipIdx.foldlM record a.columns
  let value ← columns.zipIdx.foldlM
    (fun total (j, i) => do Cost.add total (← cell a.costs i j)) 0
  pure {
    costs := a.costs
    rowDuals := t.rowDuals
    columnDuals := matched.map Column.dual
    columns, value }

/-- The assignment problem of a cost matrix, solved. -/
def ofCosts (costs : Array (Array Int)) : Except Fault Assignment :=
  let n := costs.size
  solve {
    costs
    rowDuals := List.replicate n 0
    columnDuals := List.replicate n 0
    columns := List.replicate n 0
    value := 0 }

/-- The number of rows. -/
def size (a : Assignment) : Nat := a.costs.size

/-- By how much the total grows at least if the arc is forced. -/
def reducedCost (a : Assignment) (i j : Nat) : Except Fault Int := do
  let c ← Cost.sub (← cell a.costs i j) (← entry a.rowDuals i)
  Cost.sub c (← entry a.columnDuals j)

/-- The cost of an arc that may not be used. -/
def forbidden : Int := 10000000

/-- Forbids an arc; the solution is left as it is. -/
def remove (a : Assignment) (i j : Nat) : Except Fault Assignment := do
  let _ ← cell a.costs i j
  pure { a with costs := a.costs.modify i fun row => row.setIfInBounds j forbidden }

end Assignment

end Fathom.Routing
