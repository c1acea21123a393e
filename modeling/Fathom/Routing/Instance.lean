import Fathom.Cost

/-!
# Pickup-and-delivery instances

A route starts in the depot `+0`, visits every node once and each pickup before its delivery, and
ends in the depot `-0`. An instance numbers its nodes; it knows the role of each node, the other end
of each request and the cost of each arc. `Instance.isFeasible` tells which arcs a route may use.
-/

namespace Fathom.Routing

/-- The role of a node in a route. -/
inductive Role
  | start
  | finish
  | pickup
  | delivery
  deriving DecidableEq, Repr

/-- The label of the start depot. -/
def startLabel : String := "+0"

/-- The label of the end depot. -/
def finishLabel : String := "-0"

/-- The role that a label tells: beside the depots, a plus sign makes a pickup, and otherwise a
minus sign a delivery. -/
def Role.ofLabel? (label : String) : Option Role :=
  if label = startLabel then some .start
  else if label = finishLabel then some .finish
  else if '+' ∈ label.toList then some .pickup
  else if '-' ∈ label.toList then some .delivery
  else none

/-- A pickup-and-delivery instance, with its nodes numbered from zero. -/
structure Instance where
  name : String
  comment : String
  labels : Array String
  roles : Array Role
  /-- The other end of the request of each pickup or delivery. -/
  partners : Array (Option Nat)
  /-- The cost of each arc, by origin. -/
  costs : Array (Array Int)
  start : Nat
  finish : Nat

namespace Instance

/-- The number of nodes. -/
def size (P : Instance) : Nat := P.labels.size

/-- The nodes, in the order of the instance. -/
def nodes (P : Instance) : List Nat := List.range P.size

/-- The label of a node. -/
def label (P : Instance) (a : Nat) : String := P.labels.getD a ""

/-- The node of a label. -/
def index? (P : Instance) (label : String) : Option Nat := P.labels.toList.idxOf? label

/-- The role of a node. -/
def role? (P : Instance) (a : Nat) : Option Role := P.roles[a]?

/-- The node is a pickup. -/
def isPickup (P : Instance) (a : Nat) : Bool := P.role? a == some .pickup

/-- The node is a delivery. -/
def isDelivery (P : Instance) (a : Nat) : Bool := P.role? a == some .delivery

/-- The pickups, in the order of the instance. -/
def pickups (P : Instance) : List Nat := P.nodes.filter P.isPickup

/-- The deliveries, in the order of the instance. -/
def deliveries (P : Instance) : List Nat := P.nodes.filter P.isDelivery

/-- The delivery of a pickup. -/
def deliveryOf (P : Instance) (a : Nat) : Option Nat :=
  if P.isPickup a then P.partners.getD a none else none

/-- `b` is the delivery of `a`. -/
def precedes (P : Instance) (a b : Nat) : Bool := P.deliveryOf a == some b

/-- The cost of the arc from `a` to `b`. -/
def cost (P : Instance) (a b : Nat) : Int := (P.costs.getD a #[]).getD b 0

/-- A route may go from `a` straight to `b`: nothing enters the start or leaves the end, no delivery
comes right before its pickup, the start is followed by a pickup and the end preceded by a
delivery. -/
def isFeasible (P : Instance) (a b : Nat) : Bool :=
  b != P.start && a != P.finish && a != b && !P.precedes b a &&
    match P.role? a, P.role? b with
    | some .start, some .delivery => false
    | some .start, some .finish => false
    | some .pickup, some .finish => false
    | _, _ => true

/-- The nodes that may follow `a` in a route. -/
def feasibleSuccessors (P : Instance) (a : Nat) : List Nat := P.nodes.filter (P.isFeasible a)

/-- The labels of the nodes, in order. -/
def labelsOf (P : Instance) (nodes : List Nat) : List String := nodes.map P.label

end Instance

end Fathom.Routing
