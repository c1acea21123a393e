import Fathom.Routing.ArcRelaxation
import Fathom.Text.Padding

/-!
# Routes as sequences of visits

A state is a partial route from the start depot, with the nodes that may be visited next: the
pickups not yet visited and the deliveries whose pickup is. Once the last delivery is visited, only
the end depot remains; a route from which nothing may be visited is complete.

A relaxation folds the states beyond the width into one that may go wherever one of them may.
-/

namespace Fathom.Routing

/-- A partial route. -/
structure Visits where
  /-- The last node. -/
  node : Nat
  /-- The nodes before it, the latest first. -/
  earlier : List Nat
  /-- The nodes that may be visited next. -/
  feasible : List Nat
  cost : Int
  /-- The assignment relaxation that was known when the node was reached. -/
  relaxation : Option Assignment

namespace Visits

/-- The nodes of the route in order. -/
def route (s : Visits) : List Nat := (s.node :: s.earlier).reverse

/-- The route that stays at the start depot. -/
def root (P : Instance) (infer : Bool) : Except Fault Visits := do
  let relaxation ← if infer then some <$> P.relaxation else pure none
  pure { node := P.start, earlier := [], feasible := P.pickups, cost := 0, relaxation }

/-- The route may not go on. -/
def isSolved (s : Visits) : Bool := s.feasible.isEmpty

/-- The nodes that may be visited after `next`: those of now without it, and its delivery if it is a
pickup. After the last delivery comes the end depot. -/
def feasibleAfter (P : Instance) (s : Visits) (next : Nat) : List Nat :=
  if s.feasible.length == 1 && s.feasible.all P.isDelivery then [P.finish]
  else s.feasible.filter (· != next) ++ (P.deliveryOf next).toList

/-- The route that goes on to `next`, unless it cannot improve on the best one known. -/
def visit (P : Instance) (s : Visits) (dual : Option Assignment) (best : Option Int)
    (next : Nat) : Except Fault (Option Visits) := do
  let cost ← Cost.add s.cost (P.cost s.node next)
  if !Cost.beats best cost then return none
  if ← Assignment.filtersAny dual s.node next best then return none
  return some {
    node := next
    earlier := s.node :: s.earlier
    feasible := s.feasibleAfter P next
    cost
    relaxation := dual <|> s.relaxation }

/-- The routes that go on by one visit. -/
def expand (P : Instance) (s : Visits) (dual : Option Assignment) (best : Option Int) :
    Except Fault (List Visits) := do
  let reached ← s.feasible.mapM (s.visit P dual best)
  pure (reached.filterMap id)

/-- The relaxation that also has to use the arc to the last node. -/
def inference (s : Visits) : Except Fault (Option Assignment) :=
  match s.relaxation, s.earlier with
  | none, _ => .ok none
  | some a, [] => .ok (some a)
  | some a, before :: _ => some <$> a.force before s.node

/-- The nodes that one of the states may visit next, in order. -/
def mayVisit (states : List Visits) : List Nat :=
  ((states.flatMap feasible).mergeSort fun a b => decide (a ≤ b)).eraseReps

/-- Keeps the `width - 1` cheapest states and folds the others into the cheapest of them. -/
def fold : Merger Visits := fun states width =>
  if width = 0 ∨ states.length ≤ width then states
  else
    let sorted := states.mergeSort fun a b => decide (a.cost ≤ b.cost)
    let folded := sorted.drop (width - 1)
    sorted.take (width - 1) ++
      (folded.head?.map fun first => { first with feasible := mayVisit folded }).toList

/-- A state as a line of text. -/
def text (P : Instance) (s : Visits) : String :=
  let cost := Text.zeroPaddedInt 5 s.cost
  let path := " ".intercalate (P.labelsOf s.route)
  s!"cost={cost} path=[{path}]"

/-- The search for a cheapest route as a sequence of visits. -/
def domain (P : Instance) (width : Nat) (relax narrate : Bool) : Domain Visits Assignment where
  cost := cost
  expand := expand P
  announce states := if narrate then states.map (text P) else []
  dual := Assignment.space
  solved := isSolved
  infer s := do
    pure ((← s.inference).map fun a => a.diagram width)
  relax s := .ok (if relax then some (Diagram.root s [fold] width) else none)
  restrict s := .ok (some (Diagram.root s [Merger.cheapest cost] width))
  height := 2 * P.size + 2

end Visits

/-- A number of rounds that no search for a route of the instance needs: each round bounds at least
one partial route, and there are fewer of them. -/
def Instance.rounds (P : Instance) : Nat := Nat.pow (P.size + 2) (2 * P.size + 4)

end Fathom.Routing
