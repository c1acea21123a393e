import Fathom.Domain

/-!
# Bounding a state

`Bound.compute` compiles the inference, relaxation and restriction diagrams of a state in lockstep,
layer by layer, until the restriction is exhausted or the state is seen not to improve on the best
solution known. The outcome is a `Bound` with one of three labels: the subtree is solved (`exact`),
cannot improve (`failed`), or has to be branched on (`relaxed`).
-/

namespace Fathom

/-- What is known of a subtree once its root has been bounded. -/
inductive Label
  /-- The primal is the best solution of the subtree. -/
  | exact
  /-- The subtree holds no improving solution. -/
  | failed
  /-- A gap remains. -/
  | relaxed
  deriving DecidableEq, Repr

/-- The outcome of bounding a state. -/
structure Bound (σ δ : Type) where
  root : σ
  /-- The best state of the last inference layer that was read. -/
  inferenceDual : Option δ
  /-- The best state of the last relaxation layer that was read. -/
  relaxationDual : Option σ
  /-- The best state of the last restriction layer that held one. -/
  primal : σ
  label : Label

namespace Bound

variable {σ δ : Type}

/-- The lower bound on the solutions below the root; costs are taken to be at least zero. -/
def dualBound (D : Domain σ δ) (b : Bound σ δ) : Int :=
  max (max 0 (b.inferenceDual.elim 0 D.dual.cost)) (b.relaxationDual.elim 0 D.cost)

/-- The cost of the primal. -/
def primalBound (D : Domain σ δ) (b : Bound σ δ) : Int := D.cost b.primal

/-- The bound brings a solution that is strictly cheaper than the best one known. -/
def isBetterThan (D : Domain σ δ) (b : Bound σ δ) (best : Option Int) : Bool :=
  b.label != .failed && D.solved b.primal && Cost.beats best (D.cost b.primal)

/-- The subtree is solved. -/
def isExact (b : Bound σ δ) : Bool := b.label == .exact

/-- The subtree cannot improve. -/
def isFailed (b : Bound σ δ) : Bool := b.label == .failed

/-- The subtree has to be branched on. -/
def isRelaxed (b : Bound σ δ) : Bool := b.label == .relaxed

end Bound

/-- Three diagrams of one state, advanced together. -/
structure Lockstep (σ δ : Type) where
  infer : Option (Diagram δ)
  relax : Option (Diagram σ)
  restrict : Diagram σ
  /-- The largest of the root's cost and the dual costs read so far. -/
  floor : Int
  inferenceDual : Option δ
  relaxationDual : Option σ
  primal : σ

namespace Lockstep

variable {σ δ τ : Type}

/-- The three diagrams at their root layers. -/
def start (D : Domain σ δ) (root : σ) : Except Fault (Lockstep σ δ) := do
  let infer ← D.infer root
  let relax ← D.relax root
  match ← D.restrict root with
  | none => .error .noRestriction
  | some restrict =>
    pure {
      infer, relax, restrict
      floor := D.cost root
      inferenceDual := none
      relaxationDual := none
      primal := root }

/-- The current layer of the diagram shows that nothing below improves on `best`: it is empty, or
its cheapest state is no cheaper. -/
def closes (cost : τ → Int) (best : Option Int) : Option (Diagram τ) → Bool
  | none => false
  | some d =>
    match d.layer.best cost with
    | none => true
    | some state => !Cost.beats best (cost state)

/-- Reads the inference layer. -/
def noteInference (D : Domain σ δ) (s : Lockstep σ δ) : Lockstep σ δ :=
  match s.infer.bind fun d => d.layer.best D.dual.cost with
  | none => s
  | some dual => { s with inferenceDual := some dual, floor := max s.floor (D.dual.cost dual) }

/-- Reads the relaxation layer. -/
def noteRelaxation (D : Domain σ δ) (s : Lockstep σ δ) : Lockstep σ δ :=
  match s.relax.bind fun d => d.layer.best D.cost with
  | none => s
  | some dual => { s with relaxationDual := some dual, floor := max s.floor (D.cost dual) }

/-- Reads the restriction layer. -/
def notePrimal (D : Domain σ δ) (s : Lockstep σ δ) : Lockstep σ δ :=
  match s.restrict.layer.best D.cost with
  | none => s
  | some state => { s with primal := state }

/-- All diagrams one layer further, inference first; the inference dual is the hint of each. -/
def advance (D : Domain σ δ) (best : Option Int) (s : Lockstep σ δ) :
    Traced (Lockstep σ δ) := do
  let infer ← match s.infer with
    | none => pure none
    | some d => some <$> d.advance D.dual s.inferenceDual best
  let relax ← match s.relax with
    | none => pure none
    | some d => some <$> d.advance D.toSpace s.inferenceDual best
  let restrict ← s.restrict.advance D.toSpace s.inferenceDual best
  pure { s with infer, relax, restrict }

/-- The bound with the duals and the primal read so far. -/
def bound (s : Lockstep σ δ) (root : σ) (label : Label) : Bound σ δ where
  root
  inferenceDual := s.inferenceDual
  relaxationDual := s.relaxationDual
  primal := s.primal
  label

/-- The bound once the restriction is exhausted. A merge may have hidden all solutions: then the
root is its own primal and has to be branched on. -/
def conclude (D : Domain σ δ) (s : Lockstep σ δ) (root : σ) : Bound σ δ :=
  if D.solved s.primal then
    s.bound root (if s.floor < D.cost s.primal then .relaxed else .exact)
  else if s.restrict.layer.isExact then
    s.bound root .failed
  else
    { s with primal := root }.bound root .relaxed

/-- Advances until the restriction is exhausted or the root is seen not to improve on `best`. -/
def descend (D : Domain σ δ) (best : Option Int) (root : σ) :
    Nat → Lockstep σ δ → Traced (Bound σ δ)
  | 0, _ => Traced.fail .unfinished
  | fuel + 1, s =>
    if s.restrict.isDone then pure (s.conclude D root) else
    let s := s.noteInference D
    if closes D.dual.cost best s.infer then pure (s.bound root .failed) else
    let s := s.noteRelaxation D
    if closes D.cost best s.relax then pure (s.bound root .failed) else
    let s := s.notePrimal D
    if s.restrict.layer.isExact && !Cost.beats best (D.cost s.primal) then
      pure (s.bound root .failed)
    else do
      let s ← s.advance D best
      descend D best root fuel s

end Lockstep

/-- Bounds the solutions below `root`, given the cost of the best solution known. -/
def Bound.compute {σ δ : Type} (D : Domain σ δ) (root : σ) (best : Option Int) :
    Traced (Bound σ δ) := do
  let s ← Traced.silent (Lockstep.start D root)
  s.descend D best root (D.height + 1)

end Fathom
