import Fathom.Routing.Draft
import Fathom.Routing.Instance

/-!
# Validating instances

`Instance.ofDraft` accepts a draft whose edges form a square matrix over its nodes, whose labels are
distinct and tell their role, which has both depots, and whose precedence entries each join a known
pickup to a known delivery and leave no pickup or delivery out. The checks come in that order, and
the first that fails is the error.
-/

namespace Fathom.Routing

/-- Why a draft is not an instance. -/
inductive InstanceError
  | notSquare (size : Nat)
  | duplicateNode (label : String)
  | noRole (label : String)
  | missingStart
  | missingFinish
  | unknownPickup (label : String)
  | unknownDelivery (label : String)
  | notAPair (pickup delivery : String)
  | noRequest (label : String)
  deriving DecidableEq, Repr

/-- The wording of an error. -/
def InstanceError.message : InstanceError → String
  | notSquare size => s!"the edges must form a {size}x{size} matrix"
  | duplicateNode label => s!"duplicate node {label}"
  | noRole label => s!"node {label} is neither a pickup nor a delivery"
  | missingStart => "missing start node +0"
  | missingFinish => "missing end node -0"
  | unknownPickup label => s!"unknown pickup {label}"
  | unknownDelivery label => s!"unknown delivery {label}"
  | notAPair pickup delivery => s!"{pickup} -> {delivery} is not a pickup/delivery pair"
  | noRequest label => s!"node {label} belongs to no request"

/-- Why a text is not an instance. -/
inductive ReadError
  /-- It is not JSON of the right shape. -/
  | malformed
  | invalid (error : InstanceError)
  deriving DecidableEq, Repr

namespace Instance

/-- The roles of the nodes; the labels in `seen` are taken. -/
def rolesOf (seen : List String) : List String → Except InstanceError (List Role)
  | [] => .ok []
  | label :: more =>
    if label ∈ seen then .error (.duplicateNode label)
    else
      match Role.ofLabel? label with
      | none => .error (.noRole label)
      | some role => do
        let roles ← rolesOf (label :: seen) more
        pure (role :: roles)

/-- Joins a pickup to a delivery. -/
def pairUp (labels : List String) (roles : List Role) (partners : List (Option Nat))
    (entry : String × String) : Except InstanceError (List (Option Nat)) :=
  match labels.idxOf? entry.1, labels.idxOf? entry.2 with
  | none, _ => .error (.unknownPickup entry.1)
  | some _, none => .error (.unknownDelivery entry.2)
  | some p, some d =>
    if roles[p]? = some .pickup ∧ roles[d]? = some .delivery then
      .ok ((partners.set p (some d)).set d (some p))
    else
      .error (.notAPair entry.1 entry.2)

/-- A pickup or delivery without the other end of its request. -/
def isUnpaired (roles : List Role) (partners : List (Option Nat)) (a : Nat) : Bool :=
  (roles[a]? == some .pickup || roles[a]? == some .delivery) && (partners[a]?.join).isNone

/-- The instance that a draft describes. -/
def ofDraft (d : Draft) : Except InstanceError Instance := do
  let n := d.nodes.length
  if d.edges.length ≠ n ∨ ∃ row ∈ d.edges, row.length ≠ n then
    throw (.notSquare n)
  let roles ← rolesOf [] d.nodes
  let some start := d.nodes.idxOf? startLabel | throw .missingStart
  let some finish := d.nodes.idxOf? finishLabel | throw .missingFinish
  let partners ← d.precedence.foldlM (pairUp d.nodes roles) (List.replicate n none)
  match (List.range n).find? (isUnpaired roles partners) with
  | some a => throw (.noRequest (d.nodes.getD a ""))
  | none =>
    pure {
      name := d.name
      comment := d.comment
      labels := d.nodes.toArray
      roles := roles.toArray
      partners := partners.toArray
      costs := (d.edges.map List.toArray).toArray
      start, finish }

/-- The instance that a JSON value holds. -/
def ofValue (v : Json.Value) : Except ReadError Instance :=
  match Draft.ofValue? v with
  | none => .error .malformed
  | some d => (ofDraft d).mapError .invalid

/-- The instance that a text writes. -/
def ofText (text : String) : Except ReadError Instance :=
  match Json.Value.ofText? text with
  | none => .error .malformed
  | some v => ofValue v

end Instance

end Fathom.Routing
