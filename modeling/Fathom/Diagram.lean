import Fathom.Layer

/-!
# Decision diagrams

A diagram holds one live layer, the mergers that keep its layers within the width, and that width
(zero means unbounded). Advancing replaces the layer with the next one.
-/

namespace Fathom

/-- A decision diagram, at its current layer. -/
structure Diagram (σ : Type) where
  layer : Layer σ
  mergers : List (Merger σ)
  width : Nat

namespace Diagram

variable {σ δ : Type}

/-- The diagram at the layer of its root. -/
def root (state : σ) (mergers : List (Merger σ)) (width : Nat) : Diagram σ :=
  ⟨Layer.root state, mergers, width⟩

/-- No state is left in the current layer. -/
def isDone (d : Diagram σ) : Bool := d.layer.states.isEmpty

/-- The diagram one layer further. -/
def advance (S : Space σ δ) (d : Diagram σ) (dual : Option δ) (best : Option Int) :
    Traced (Diagram σ) := do
  let layer ← d.layer.expand S d.mergers d.width dual best
  pure { d with layer }

end Diagram

end Fathom
