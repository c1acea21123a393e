import Fathom.Cost

/-!
# Mergers

A merger maps an oversized collection of states to a smaller one, given the width to reach.
`Merger.cheapest` is the restriction that keeps the least cost states. `Merger.shrink` applies a
list of mergers in turn, as often as needed, until the collection fits; it ends because every full
cycle that goes on has removed at least one state.
-/

namespace Fathom

/-- Reduces a collection of states, ideally down to the given width. -/
abbrev Merger (σ : Type) := List σ → Nat → List σ

namespace Merger

variable {σ : Type}

/-- Keeps the cheapest states, in order of cost; among equal costs the earlier ones. -/
def cheapest (cost : σ → Int) : Merger σ := fun states width =>
  (states.mergeSort fun a b => decide (cost a ≤ cost b)).take width

/-- Applies each merger once, in order, up to the first collection that fits. -/
def cycle (width : Nat) : List (Merger σ) → List σ → List σ
  | [], states => states
  | merge :: more, states =>
    let merged := merge states width
    if merged.length ≤ width then merged else cycle width more merged

/-- Repeats the cycle of mergers until the collection fits. -/
def reduce (mergers : List (Merger σ)) (width : Nat) (states : List σ) :
    Except Fault (List σ) :=
  if (cycle width mergers states).length ≤ width then
    .ok (cycle width mergers states)
  else if (cycle width mergers states).length < states.length then
    reduce mergers width (cycle width mergers states)
  else
    .error (.stuckMergers states.length width)
termination_by states.length

/-- Reduces the states of the layer at `depth` to the width; width zero means unbounded. -/
def shrink (mergers : List (Merger σ)) (width depth : Nat) (states : List σ) :
    Except Fault (List σ) :=
  if width = 0 ∨ states.length ≤ width then .ok states
  else if mergers.isEmpty then .error (.noMerger depth states.length width)
  else reduce mergers width states

end Merger

end Fathom
