import Fathom.Domain

/-!
# Search trees written out

A table lists every state with its cost and its successors by number. It is the plainest domain: all
that the engine asks of a state is looked up. Mergers are chosen by name from a small stock, some of
which grow a collection or leave it as it is, so that a table can also break the engine's contract.
-/

namespace Fathom

/-- The mergers a table can name. -/
inductive MergerName
  | maxCost
  | keepFirst
  | dropLast
  | dropFirst
  | identity
  | reverse
  | clear
  | double
  deriving DecidableEq, Repr

namespace MergerName

/-- The merger of that name, on states with the given costs. -/
def merger {σ : Type} (cost : σ → Int) : MergerName → Merger σ
  | maxCost => Merger.cheapest cost
  | keepFirst => fun states width => states.take width
  | dropLast => fun states _ => states.dropLast
  | dropFirst => fun states _ => states.tail
  | identity => fun states _ => states
  | reverse => fun states _ => states.reverse
  | clear => fun _ _ => []
  | double => fun states _ => states ++ states.getLast?.toList

end MergerName

/-- A diagram of a table: its root (by default the state that asks for it), width and mergers. -/
structure TableDiagram where
  root : Option Nat
  width : Nat
  mergers : List MergerName

/-- Which diagram a state has: that of the table, or one of its own or none. -/
inductive TableChoice
  | inherited
  | own (diagram : Option TableDiagram)

/-- A state of a table. -/
structure TableState where
  cost : Int
  solved : Bool
  next : List Nat
  /-- The dual hints under which this state is not reached. -/
  block : List Nat
  infer : TableChoice
  relax : TableChoice
  restrict : TableChoice

/-- A search tree whose states are numbered. -/
structure Table where
  states : Array TableState
  /-- Successors that do not improve on the best solution known are left out. -/
  prune : Bool
  infer : Option TableDiagram
  relax : Option TableDiagram
  restrict : Option TableDiagram

namespace Table

/-- The state of a number. -/
def state (t : Table) (id : Nat) : Except Fault TableState :=
  match t.states[id]? with
  | some s => .ok s
  | none => .error .outOfBounds

/-- The cost of a state; zero for a number outside the table. -/
def cost (t : Table) (id : Nat) : Int := t.states[id]?.elim 0 TableState.cost

/-- The state is a solution. -/
def solved (t : Table) (id : Nat) : Bool := t.states[id]?.elim false TableState.solved

/-- A state is reached unless pruning leaves it out or the dual hint blocks it. -/
def reaches (t : Table) (dual : Option Nat) (best : Option Int) (id : Nat) : Bool :=
  (!t.prune || Cost.beats best (t.cost id)) &&
    dual.all fun d => !(t.states[id]?.elim [] TableState.block).contains d

/-- The successors of a state, in the order of the table. -/
def expand (t : Table) (id : Nat) (dual : Option Nat) (best : Option Int) :
    Except Fault (List Nat) := do
  pure ((← t.state id).next.filter (t.reaches dual best))

/-- The mergers of these names, by the costs of the table. -/
def mergers (t : Table) (names : List MergerName) : List (Merger Nat) :=
  names.map (MergerName.merger t.cost)

/-- The diagram that `id` asks for. -/
def diagram (t : Table) (shared : Option TableDiagram) (choice : TableState → TableChoice)
    (id : Nat) : Except Fault (Option (Diagram Nat)) := do
  let chosen :=
    match choice (← t.state id) with
    | .inherited => shared
    | .own diagram => diagram
  pure (chosen.map fun d => Diagram.root (d.root.getD id) (t.mergers d.mergers) d.width)

/-- The states of the table as a space. -/
def space (t : Table) : Space Nat Nat where
  cost := t.cost
  expand := t.expand
  announce _ := []

/-- The table as a search domain whose restriction diagrams have at most `height` layers. -/
def domain (t : Table) (height : Nat) : Domain Nat Nat where
  toSpace := t.space
  dual := t.space
  solved := t.solved
  infer := t.diagram t.infer TableState.infer
  relax := t.diagram t.relax TableState.relax
  restrict := t.diagram t.restrict TableState.restrict
  height

end Table

end Fathom
