import Fathom.Routing.ArcRelaxation
import Fathom.Routing.NodeSet
import Fathom.Text.Padding

/-!
# Routes as chains of successors

A state gives some nodes their successor, in a decision order fixed beforehand. The arcs chosen so
far join nodes into chains; for each node the state holds its chain and the nodes known to come
before and after that chain in any route with these arcs. `Chains.candidates` are the successors a
node may still be given, and `Chains.assign` gives it one and propagates the precedences that
follow.
-/

namespace Fathom.Routing

/-- How the decision order is chosen. -/
inductive DecisionRule
  /-- The order of the instance. -/
  | input
  /-- Least cost of an arc to a candidate first. -/
  | greedy
  /-- Largest gap between the two least costs first. -/
  | regret
  deriving DecidableEq, Repr

/-- By their roles alone, `a` comes before `b` in every route. -/
def Instance.leads (P : Instance) (a b : Nat) : Bool :=
  a != b && (a == P.start || b == P.finish || P.precedes a b)

/-- What is known of a node. -/
structure Link where
  /-- The nodes of its chain. -/
  chain : NodeSet
  /-- Nodes that come before its chain. -/
  before : NodeSet
  /-- Nodes that come after its chain. -/
  after : NodeSet
  prev : Option Nat
  next : Option Nat

/-- A node of which nothing is known. -/
def Link.unknown : Link := ⟨NodeSet.empty, NodeSet.empty, NodeSet.empty, none, none⟩

/-- A choice of successors. -/
structure Chains where
  /-- The cost of the arcs chosen. -/
  cost : Int
  /-- The nodes other than the start depot that are no node's successor yet. -/
  targets : List Nat
  links : Array Link
  /-- The number of successors chosen. -/
  depth : Nat
  /-- The assignment relaxation that was known when the last successor was chosen. -/
  relaxation : Option Assignment

namespace Chains

/-! ## Reading the chains -/

/-- What is known of a node. -/
def link (s : Chains) (a : Nat) : Link := s.links.getD a Link.unknown

/-- The number of nodes. -/
def size (s : Chains) : Nat := s.links.size

/-- The successor of a node. -/
def successor (s : Chains) (a : Nat) : Option Nat := (s.link a).next

/-- Nodes known to come before the chain of a node. -/
def mustPrecede (s : Chains) (a : Nat) : List Nat := (s.link a).before.members s.size

/-- Nodes known to come after the chain of a node. -/
def mustFollow (s : Chains) (a : Nat) : List Nat := (s.link a).after.members s.size

/-- The node and at most `fuel` nodes after it on its chain. -/
def follow (s : Chains) : Nat → Nat → List Nat
  | 0, a => [a]
  | fuel + 1, a =>
    match s.successor a with
    | none => [a]
    | some b => a :: s.follow fuel b

/-- The chain that begins at a node. -/
def chainFrom (s : Chains) (head : Nat) : List Nat := s.follow s.size head

/-- The chains of at least one arc, each from its first node. -/
def chains (s : Chains) : List (List Nat) :=
  let heads := (List.range s.size).filter fun a => (s.link a).prev.isNone
  (heads.map s.chainFrom).filter fun chain => decide (1 < chain.length)

/-- The chain of the start depot. -/
def route (P : Instance) (s : Chains) : List Nat := s.chainFrom P.start

/-- Every node but the start depot is a successor. -/
def isSolved (s : Chains) : Bool := s.targets.isEmpty

/-- The arc between the two nodes closes no cycle and breaks no known precedence. -/
def mayJoin (l m : Link) : Bool :=
  l.chain != m.chain && !l.chain.meets m.after && !l.before.meets m.chain &&
    !l.before.meets m.after && !l.after.meets m.before

/-- The nodes that may become the successor of a node. -/
def candidates (s : Chains) (origin : Nat) : List Nat :=
  s.targets.filter fun target => mayJoin (s.link origin) (s.link target)

/-! ## Choosing a successor -/

/-- Whatever comes before the chain of a node, or lies on it, comes before what comes after that
chain, and conversely. -/
def propagate (s : Chains) (a : Nat) : Chains :=
  let l := s.link a
  let links := s.links.mapIdx fun b m =>
    if b ∈ l.after then { m with before := ((l.before.union l.chain).union m.before).diff m.chain }
    else m
  let l := links.getD a Link.unknown
  let links := links.mapIdx fun b m =>
    if b ∈ l.before then { m with after := ((l.after.union l.chain).union m.after).diff m.chain }
    else m
  { s with links }

/-- The links once the chains of the two nodes are joined by the arc between them. -/
def join (s : Chains) (origin target : Nat) : Array Link :=
  let l := s.link origin
  let m := s.link target
  let chain := l.chain.union m.chain
  let before := (l.before.union m.before).diff chain
  let after := (l.after.union m.after).diff chain
  s.links.mapIdx fun b k =>
    let k := if b ∈ chain then { k with chain, before, after } else k
    let k := if b = target then { k with prev := some origin } else k
    if b = origin then { k with next := some target } else k

/-- The state where `target` is the successor of `origin`. -/
def assign (P : Instance) (s : Chains) (relaxation : Option Assignment) (origin target : Nat) :
    Except Fault Chains := do
  let cost ← Cost.add s.cost (P.cost origin target)
  let joined : Chains := {
    cost
    targets := s.targets.filter (· != target)
    links := s.join origin target
    depth := s.depth + 1
    relaxation }
  pure (joined.propagate origin)

/-- An arc of this cost may improve on the best route known. -/
def affordable (s : Chains) (best : Option Int) (arc : Int) : Except Fault Bool :=
  match best with
  | none => .ok true
  | some b => do
    let cost ← Cost.add s.cost arc
    pure (decide (cost < b))

/-- The state where `target` is the successor of `origin`, unless it cannot improve on the best
route known. -/
def choose (P : Instance) (s : Chains) (dual : Option Assignment) (best : Option Int)
    (origin target : Nat) : Except Fault (Option Chains) := do
  if !(← s.affordable best (P.cost origin target)) then return none
  if ← Assignment.filtersAny dual origin target best then return none
  some <$> s.assign P (dual <|> s.relaxation) origin target

/-- The states where the next node of the decision order has its successor. -/
def expand (P : Instance) (order : List Nat) (s : Chains) (dual : Option Assignment)
    (best : Option Int) : Except Fault (List Chains) :=
  match order[s.depth]? with
  | none => .ok []
  | some origin => do
    let chosen ← (s.candidates origin).mapM (s.choose P dual best origin)
    pure (chosen.filterMap id)

/-! ## The root and the decision order -/

/-- The state without arcs. -/
def bare (P : Instance) (relaxation : Option Assignment) : Chains where
  cost := 0
  targets := P.nodes.filter (· != P.start)
  links := (P.nodes.map fun a => {
    chain := NodeSet.singleton a
    before := NodeSet.ofPred P.size fun b => P.leads b a
    after := NodeSet.ofPred P.size fun b => P.leads a b
    prev := none
    next := none }).toArray
  depth := 0
  relaxation

/-- The root of the search. -/
def root (P : Instance) (infer : Bool) : Except Fault Chains := do
  let relaxation ← if infer then some <$> P.relaxation else pure none
  pure (bare P relaxation)

/-- The two least of the costs, the greatest cost standing in for those that are missing. -/
def twoLeast (costs : List Int) : Int × Int :=
  costs.foldl
    (fun (first, second) c =>
      if c < first then (c, first) else if c < second then (first, c) else (first, second))
    (Cost.greatest, Cost.greatest)

/-- The two least costs of an arc from a node to a candidate. -/
def twoCheapest (P : Instance) (s : Chains) (origin : Nat) : Int × Int :=
  twoLeast ((s.candidates origin).map (P.cost origin))

/-- The least cost of an arc from a node to a candidate. -/
def cheapestArc (P : Instance) (s : Chains) (origin : Nat) : Int := (s.twoCheapest P origin).1

/-- What it costs at least to miss the cheapest arc from a node. -/
def regret (P : Instance) (s : Chains) (origin : Nat) : Int :=
  Cost.saturatingSub (s.twoCheapest P origin).2 (s.twoCheapest P origin).1

/-- All nodes but the end depot, in the order their successors are chosen. -/
def decisionOrder (P : Instance) (rule : DecisionRule) : List Nat :=
  let nodes := P.nodes.filter (· != P.finish)
  let s := bare P none
  match rule with
  | .input => nodes
  | .greedy => nodes.mergeSort fun a b => decide (s.cheapestArc P a ≤ s.cheapestArc P b)
  | .regret => nodes.mergeSort fun a b => decide (s.regret P b ≤ s.regret P a)

/-! ## The search domain -/

/-- The last arc chosen. -/
def lastArc? (order : List Nat) (s : Chains) : Option (Nat × Nat) := do
  if s.depth = 0 then none
  let origin ← order[s.depth - 1]?
  let target ← s.successor origin
  pure (origin, target)

/-- The arcs that would bypass the chain of a node. -/
def bypasses (s : Chains) (a : Nat) : List (Nat × Nat) :=
  (s.mustPrecede a).flatMap fun b => (s.mustFollow a).map fun c => (b, c)

/-- The relaxation that also has to use the last arc and may not bypass its chain. -/
def inference (order : List Nat) (s : Chains) : Except Fault (Option Assignment) :=
  match s.relaxation, s.lastArc? order with
  | none, _ => .ok none
  | some a, none => .ok (some a)
  | some a, some (origin, target) =>
    some <$> a.without (a.rivals origin target ++ s.bypasses origin)

/-- A state as a line of text. -/
def text (P : Instance) (s : Chains) : String :=
  let cost := Text.zeroPaddedInt 5 s.cost
  let targets := " ".intercalate (P.labelsOf s.targets)
  let chains := " ".intercalate (s.chains.map fun chain =>
    "[" ++ " ".intercalate (P.labelsOf chain) ++ "]")
  s!"cost={cost} domain=[{targets}] partials=[{chains}]"

/-- The search for a cheapest route by choosing successors in the given order. -/
def domain (P : Instance) (order : List Nat) (width : Nat) (narrate : Bool) :
    Domain Chains Assignment where
  cost := cost
  expand := expand P order
  announce states := if narrate then states.map (text P) else []
  dual := Assignment.space
  solved := isSolved
  infer s := do
    pure ((← s.inference order).map fun a => a.diagram width)
  relax _ := .ok none
  restrict s := .ok (some (Diagram.root s [Merger.cheapest cost] width))
  height := P.size + 1

end Chains

end Fathom.Routing
