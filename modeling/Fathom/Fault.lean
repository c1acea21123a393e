/-!
# Faults

A run either answers or stops at a fault: an arithmetic overflow, an index outside a table, a broken
contract between a domain and the engine, more workers than there is room for, or fuel that ran out.
`Fault.message` words them.
-/

namespace Fathom

/-- Why a computation stopped without an answer. -/
inductive Fault
  /-- A cost left the 64-bit signed range. -/
  | overflow
  /-- A table was read outside its bounds. -/
  | outOfBounds
  /-- A state to be bounded has no restriction diagram. -/
  | noRestriction
  /-- The layer to be built at `depth` is too large and its diagram has no merger. -/
  | noMerger (depth count width : Nat)
  /-- A full cycle of mergers, started on `count` states, removed none. -/
  | stuckMergers (count width : Nat)
  /-- A round has no room for the batches of all workers. -/
  | tooManyWorkers
  /-- The fuel ran out before the computation ended. -/
  | unfinished
  deriving DecidableEq, Repr

namespace Fault

/-- The wording of a fault. -/
def message : Fault → String
  | overflow => "arithmetic overflow"
  | outOfBounds => "index out of bounds"
  | noRestriction => "a state must always provide a restriction diagram"
  | noMerger depth count width =>
    s!"layer {depth} holds {count} states (width {width}) but has no merger"
  | stuckMergers count width =>
    s!"a full cycle of mergers left {count} states unchanged (width {width})"
  | tooManyWorkers => "capacity overflow"
  | unfinished => "out of fuel"

end Fault

end Fathom
