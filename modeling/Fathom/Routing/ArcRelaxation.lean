import Fathom.Domain
import Fathom.Routing.Assignment
import Fathom.Routing.Instance

/-!
# The assignment relaxation of a route

Closed by the arc from the end depot back to the start, a route gives each node a successor of its
own. Without the demand that these form one cycle, the cheapest choice is an assignment problem, and
its value is at most the cost of any closed route. Arcs no route may use, and arcs that are removed
later on, get the price `Assignment.forbidden`.
-/

namespace Fathom.Routing

/-- The price of an arc in the relaxation. -/
def Instance.arcPrice (P : Instance) (a b : Nat) : Int :=
  if (a = P.finish ∧ b = P.start) ∨ P.isFeasible a b then P.cost a b else Assignment.forbidden

/-- The assignment relaxation of an instance. -/
def Instance.relaxation (P : Instance) : Except Fault Assignment :=
  Assignment.ofCosts
    (P.nodes.map fun a => (P.nodes.map fun b => P.arcPrice a b).toArray).toArray

namespace Assignment

/-- The relaxation that may not use these arcs either. -/
def without (a : Assignment) (arcs : List (Nat × Nat)) : Except Fault Assignment := do
  (← arcs.foldlM (fun a arc => a.remove arc.1 arc.2) a).solve

/-- The arcs into `target` from anywhere but `origin`. -/
def rivals (a : Assignment) (origin target : Nat) : List (Nat × Nat) :=
  ((List.range a.size).filter (· != origin)).map fun i => (i, target)

/-- The relaxation that has to use an arc. -/
def force (a : Assignment) (origin target : Nat) : Except Fault Assignment :=
  a.without (a.rivals origin target)

/-- By its reduced cost, the arc belongs to no route that improves on the best one known. -/
def filters (a : Assignment) (origin target : Nat) (best : Option Int) : Except Fault Bool :=
  match best with
  | none => .ok false
  | some b => do
    let c ← Cost.add a.value (← a.reducedCost origin target)
    pure (decide (b ≤ c))

/-- An arc is filtered by a relaxation if there is one. -/
def filtersAny (dual : Option Assignment) (origin target : Nat) (best : Option Int) :
    Except Fault Bool :=
  match dual with
  | none => .ok false
  | some a => a.filters origin target best

/-- Relaxations as the states of inference diagrams: they stay the same from layer to layer. -/
def space : Space Assignment Assignment where
  cost := value
  expand a _ _ := .ok [a]
  announce _ := []

/-- The diagram of a relaxation, which never merges. -/
def diagram (a : Assignment) (width : Nat) : Diagram Assignment := Diagram.root a [] width

/-- Relaxations as a domain of their own, without solutions. -/
def domain (height : Nat) : Domain Assignment Assignment where
  toSpace := space
  dual := space
  solved _ := false
  infer a := .ok (some (a.diagram 0))
  relax a := .ok (some (a.diagram 0))
  restrict a := .ok (some (a.diagram 0))
  height

end Assignment

end Fathom.Routing
