import Fathom.Merger
import Fathom.Traced

/-!
# Layers

A `Space` is what a diagram walks: states with a cost, and their successors. A `Layer` is one depth
level of a diagram. Expanding a layer expands its states in order and reduces what they yield to the
width; a layer is exact as long as no reduction on the way to it has changed the number of states.
The best state of a layer is one of its states (`best_mem`) and none is cheaper (`cost_best_le`).
-/

namespace Fathom

/-- The states of a diagram and how to go one step further from them, given the dual hint and the
cost of the best solution known. -/
structure Space (σ δ : Type) where
  cost : σ → Int
  expand : σ → Option δ → Option Int → Except Fault (List σ)
  /-- The lines announced when these states have been reached. -/
  announce : List σ → List String

namespace Space

variable {σ δ : Type}

/-- The successors of a state, announced. -/
def branch (S : Space σ δ) (state : σ) (dual : Option δ) (best : Option Int) :
    Traced (List σ) :=
  match S.expand state dual best with
  | .error f => Traced.fail f
  | .ok states => ⟨S.announce states, .ok states⟩

/-- The successors of all states, in order. -/
def branchAll (S : Space σ δ) (states : List σ) (dual : Option δ) (best : Option Int) :
    Traced (List σ) := do
  let reached ← Traced.sequence (states.map fun state => S.branch state dual best)
  pure reached.flatten

@[simp] theorem result_branch (S : Space σ δ) (state : σ) (dual : Option δ)
    (best : Option Int) : (S.branch state dual best).result = S.expand state dual best := by
  unfold branch
  split <;> simp_all

end Space

/-- One depth level of a diagram. -/
structure Layer (σ : Type) where
  /-- The number of steps from the root layer. -/
  depth : Nat
  states : List σ
  /-- No state has been lost on the way to this layer. -/
  isExact : Bool

namespace Layer

variable {σ δ : Type}

/-- The layer that holds the root alone. -/
def root (state : σ) : Layer σ := ⟨0, [state], true⟩

/-- The cheaper of two states; the first if they cost the same. -/
def cheaper (cost : σ → Int) (a b : σ) : σ := if cost b < cost a then b else a

/-- The first state of least cost. -/
def best (cost : σ → Int) (layer : Layer σ) : Option σ :=
  match layer.states with
  | [] => none
  | state :: more => some (more.foldl (cheaper cost) state)

/-- The next layer. -/
def expand (S : Space σ δ) (mergers : List (Merger σ)) (width : Nat) (layer : Layer σ)
    (dual : Option δ) (best : Option Int) : Traced (Layer σ) := do
  let reached ← S.branchAll layer.states dual best
  let kept ← Traced.silent (Merger.shrink mergers width (layer.depth + 1) reached)
  pure ⟨layer.depth + 1, kept, layer.isExact && kept.length == reached.length⟩

/-! ## The best state -/

theorem foldl_cheaper_mem (cost : σ → Int) (states : List σ) (first : σ) :
    states.foldl (cheaper cost) first ∈ first :: states := by
  induction states generalizing first with
  | nil => simp
  | cons state more ih =>
    rcases List.mem_cons.1 (ih (cheaper cost first state)) with h | h
    · rw [List.foldl_cons, h]
      unfold cheaper
      split <;> simp
    · exact List.mem_cons_of_mem _ (List.mem_cons_of_mem _ h)

theorem cost_foldl_cheaper_le (cost : σ → Int) (states : List σ) (first : σ) :
    ∀ state ∈ first :: states, cost (states.foldl (cheaper cost) first) ≤ cost state := by
  induction states generalizing first with
  | nil => simp
  | cons state more ih =>
    have hle : cost (cheaper cost first state) ≤ cost first ∧
        cost (cheaper cost first state) ≤ cost state := by
      unfold cheaper
      split <;> omega
    have hfirst := ih (cheaper cost first state) _ List.mem_cons_self
    intro other hother
    rw [List.foldl_cons]
    rcases List.mem_cons.1 hother with rfl | hother
    · exact Int.le_trans hfirst hle.1
    · rcases List.mem_cons.1 hother with rfl | hother
      · exact Int.le_trans hfirst hle.2
      · exact ih _ other (List.mem_cons_of_mem _ hother)

theorem best_eq_none_iff {cost : σ → Int} {layer : Layer σ} :
    layer.best cost = none ↔ layer.states = [] := by
  unfold best
  split <;> simp_all

theorem best_mem {cost : σ → Int} {layer : Layer σ} {state : σ}
    (h : layer.best cost = some state) : state ∈ layer.states := by
  unfold best at h
  split at h
  · simp at h
  · next hstates =>
    rw [hstates, ← Option.some.inj h]
    exact foldl_cheaper_mem ..

theorem cost_best_le {cost : σ → Int} {layer : Layer σ} {state : σ}
    (h : layer.best cost = some state) : ∀ other ∈ layer.states, cost state ≤ cost other := by
  unfold best at h
  split at h
  · simp at h
  · next hstates =>
    rw [hstates, ← Option.some.inj h]
    exact cost_foldl_cheaper_le _ _ _

end Layer

end Fathom
