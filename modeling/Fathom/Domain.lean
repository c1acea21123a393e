import Fathom.Diagram

/-!
# Search domains

A `Domain` is a problem as the engine sees it: a space of states, which of them are solutions, and
the three diagrams that bound a state. The engine expects costs that never decrease along an
expansion, and solved states without successors.
-/

namespace Fathom

/-- A problem to be minimised. -/
structure Domain (σ δ : Type) extends Space σ δ where
  /-- The states of inference diagrams; the best of them is the hint given to expansions. -/
  dual : Space δ δ
  /-- The state is a complete solution. -/
  solved : σ → Bool
  /-- The diagram of inferred lower bounds, if any. -/
  infer : σ → Except Fault (Option (Diagram δ))
  /-- The diagram of relaxed states, if any. -/
  relax : σ → Except Fault (Option (Diagram σ))
  /-- The diagram of genuine states; every state to be bounded must have one. -/
  restrict : σ → Except Fault (Option (Diagram σ))
  /-- No restriction diagram has more layers that hold a state. -/
  height : Nat

end Fathom
