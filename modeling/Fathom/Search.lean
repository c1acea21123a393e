import Fathom.Bound
import Fathom.Config
import Fathom.Queue

/-!
# Branch and bound

A search proceeds in rounds. A round takes a batch of nodes per worker off the queue, bounds them
all against one and the same incumbent, and then collects the bounds in worker order: it counts
them, keeps the improving solutions, and puts the successors of relaxed nodes on the queue. Budgets
are checked before the bounds of each worker are collected and once more at the end of the round;
bounds not collected by then are lost.

`Search.minimize` runs rounds until the queue is empty or a budget is spent. The clock is a
parameter: `clock r w` is what it shows, in milliseconds, when round `r` turns to the bounds of
worker `w`. `Search.run` does the same where memory is finite: it refuses a number of workers whose
batches would not fit.
-/

namespace Fathom

/-- A new incumbent, or the proof that the incumbent is optimal, with the counters at that time. -/
structure Report (σ δ : Type) where
  bound : Bound σ δ
  /-- The nodes bounded so far, failed ones excluded. -/
  nodes : Nat
  /-- The nodes fathomed so far. -/
  fails : Nat
  optimal : Bool

/-- What a search lets its observers see. -/
inductive Event (σ δ : Type)
  | announced (line : String)
  | reported (report : Report σ δ)

/-- The state of a search. -/
structure Search (σ δ : Type) where
  queue : Queue σ
  /-- The best solution found. -/
  incumbent : Option σ
  config : Config
  /-- The number of rounds that have been started. -/
  rounds : Nat
  /-- The nodes bounded so far, failed ones excluded. -/
  nodes : Nat
  /-- The nodes fathomed so far. -/
  fails : Nat
  /-- The incumbent has been proved optimal. -/
  optimal : Bool
  /-- All events so far, newest first. -/
  journal : List (Event σ δ)

/-- How a search came to its end. -/
inductive Ending
  /-- The queue ran empty. -/
  | exhausted
  /-- A budget was spent. -/
  | cutOff
  deriving DecidableEq, Repr

/-- What a step leaves: the search, and an answer or the fault that stopped it. -/
abbrev Search.Outcome (σ δ α : Type) := Search σ δ × Except Fault α

namespace Search

variable {σ δ α β : Type}

/-- A search that has not begun. -/
def start (root : σ) (config : Config) : Search σ δ where
  queue := Queue.ofRoot root
  incumbent := none
  config := config.normalized
  rounds := 0
  nodes := 0
  fails := 0
  optimal := false
  journal := []

/-- The cost of the incumbent. -/
def best (D : Domain σ δ) (s : Search σ δ) : Option Int := s.incumbent.map D.cost

/-- The reports so far, oldest first. -/
def reports (s : Search σ δ) : List (Report σ δ) :=
  s.journal.reverse.filterMap fun
    | .reported report => some report
    | .announced _ => none

/-- A budget is spent, with the clock at `elapsed`. -/
def mustStop (s : Search σ δ) (elapsed : Nat) : Bool :=
  (decide (0 < s.config.maxMillis) && decide (s.config.maxMillis ≤ elapsed)) ||
    (decide (0 < s.config.maxNodes) && decide (s.config.maxNodes ≤ s.nodes + s.fails))

/-- Enters the lines of a traced result in the journal. -/
def hear (s : Search σ δ) (x : Traced α) : Outcome σ δ α :=
  ({ s with journal := x.lines.reverse.map Event.announced ++ s.journal }, x.result)

/-- Goes on from the answer of a step, if it has one. -/
@[inline] def Outcome.andThen (x : Outcome σ δ α) (f : α → Search σ δ → Outcome σ δ β) :
    Outcome σ δ β :=
  match x with
  | (s, .error e) => (s, .error e)
  | (s, .ok a) => f a s

/-- Reports a bound with the present counters. -/
def report (s : Search σ δ) (bound : Bound σ δ) : Search σ δ :=
  let report := { bound, nodes := s.nodes, fails := s.fails, optimal := s.optimal }
  { s with journal := .reported report :: s.journal }

/-! ## Taking nodes off the queue -/

/-- Takes up to `count` nodes. Those that cannot improve on the incumbent are counted as fails and
not replaced. -/
def take (D : Domain σ δ) : Nat → Search σ δ → List σ × Search σ δ
  | 0, s => ([], s)
  | count + 1, s =>
    match s.queue.pop with
    | none => ([], s)
    | some (node, queue) =>
      if Cost.beats (s.best D) (D.cost node.state) then
        let (batch, rest) := take D count { s with queue }
        (node.state :: batch, rest)
      else
        take D count { s with queue, fails := s.fails + 1 }

/-- A batch for each of the workers. -/
def dispatch (D : Domain σ δ) : Nat → Search σ δ → List (List σ) × Search σ δ
  | 0, s => ([], s)
  | workers + 1, s =>
    let (batch, s) := s.take D s.config.batchSize
    let (batches, s) := dispatch D workers s
    (batch :: batches, s)

/-! ## Bounding and collecting -/

/-- The bounds of all batches, against the incumbent as it is. -/
def boundAll (D : Domain σ δ) (s : Search σ δ) (batches : List (List σ)) :
    Traced (List (List (Bound σ δ))) :=
  Traced.sequence (batches.map fun batch =>
    Traced.sequence (batch.map fun state => Bound.compute D state (s.best D)))

/-- Counts a bound, and keeps and reports its primal if it improves on the incumbent. -/
def account (D : Domain σ δ) (s : Search σ δ) (b : Bound σ δ) : Search σ δ :=
  if b.isFailed then { s with fails := s.fails + 1 }
  else
    let s := { s with nodes := s.nodes + 1 }
    if b.isBetterThan D (s.best D) then { s with incumbent := some b.primal }.report b else s

/-- The nodes to branch a bound on: the successors of a relaxed root that may improve. -/
def children (D : Domain σ δ) (s : Search σ δ) (b : Bound σ δ) : Traced (List (Node σ)) :=
  if b.isRelaxed then do
    let states ← D.branch b.root b.inferenceDual (s.best D)
    pure ((states.filter fun state => Cost.beats (s.best D) (D.cost state)).map fun state =>
      ⟨state, b.dualBound D, D.cost state⟩)
  else
    pure []

/-- Collects the bounds of one worker; the answer is the nodes to branch on. -/
def collect (D : Domain σ δ) : List (Bound σ δ) → Search σ δ → Outcome σ δ (List (Node σ))
  | [], s => (s, .ok [])
  | b :: more, s =>
    let s := s.account D b
    (s.hear (s.children D b)).andThen fun nodes s =>
      (collect D more s).andThen fun rest s =>
        (s, .ok (nodes ++ rest))

/-- Collects the bounds of the workers from number `worker` on, until a budget is spent. The answer
is the nodes to branch on, and whether a budget was spent. -/
def collectAll (D : Domain σ δ) (clock : Nat → Nat) :
    Nat → List (List (Bound σ δ)) → Search σ δ → Outcome σ δ (List (Node σ) × Bool)
  | _, [], s => (s, .ok ([], false))
  | worker, bounds :: more, s =>
    if s.mustStop (clock worker) then (s, .ok ([], true))
    else
      (s.collect D bounds).andThen fun nodes s =>
        (collectAll D clock (worker + 1) more s).andThen fun (rest, stopped) s =>
          (s, .ok (nodes ++ rest, stopped))

/-! ## Rounds -/

/-- The first half of a round: takes nodes off the queue and bounds them. -/
def bound (D : Domain σ δ) (s : Search σ δ) : Outcome σ δ (List (List (Bound σ δ))) :=
  let (batches, s) := { s with rounds := s.rounds + 1 }.dispatch D s.config.workers
  s.hear (s.boundAll D batches)

/-- The second half of a round: collects the bounds and extends the queue. The answer is whether a
budget is spent. -/
def settle (D : Domain σ δ) (clock : Nat → Nat) (bounds : List (List (Bound σ δ)))
    (s : Search σ δ) : Outcome σ δ Bool :=
  (s.collectAll D clock 0 bounds).andThen fun (nodes, stopped) s =>
    let s := { s with queue := s.queue.extend nodes (s.best D) }
    (s, .ok (stopped || s.mustStop (clock s.config.workers)))

/-- One round. -/
def round (D : Domain σ δ) (clock : Nat → Nat) (s : Search σ δ) : Outcome σ δ Bool :=
  (s.bound D).andThen (settle D clock)

/-- Reports the incumbent as the optimum. -/
def conclude (s : Search σ δ) : Search σ δ :=
  match s.incumbent with
  | none => s
  | some best =>
    { s with optimal := true }.report {
      root := best
      inferenceDual := none
      relaxationDual := some best
      primal := best
      label := .exact }

/-- Searches for the cheapest solution, for at most `fuel` rounds. A search that was cut off can be
taken up again. -/
def minimize (D : Domain σ δ) (clock : Nat → Nat → Nat) :
    Nat → Search σ δ → Outcome σ δ Ending
  | 0, s => (s, .error .unfinished)
  | fuel + 1, s =>
    if s.queue.isEmpty then (s.conclude, .ok .exhausted)
    else
      (s.round D (clock s.rounds)).andThen fun stopped s =>
        if stopped then (s, .ok .cutOff) else minimize D clock fuel s

/-- There is room for the batches of the next round, if there will be one. -/
def hasRoom (s : Search σ δ) : Bool :=
  s.queue.isEmpty || decide (s.config.workers ≤ Config.maxWorkers)

/-- Searches as `minimize` does. With more workers than a round has room for, the first round
fails before it takes any node. -/
def run (D : Domain σ δ) (clock : Nat → Nat → Nat) (fuel : Nat) (s : Search σ δ) :
    Outcome σ δ Ending :=
  if s.hasRoom then s.minimize D clock fuel else (s, .error .tooManyWorkers)

end Search

end Fathom
