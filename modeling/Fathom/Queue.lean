import Fathom.Cost

/-!
# The queue of pending nodes

A node is a state that waits to be bounded, with the dual bound of the node it was branched from and
its own cost. The queue holds batches of nodes: each batch is sorted by dual, then primal, and newer
batches go in front of older ones, so that nodes come out best first within a batch and newest first
across batches. The queue also counts its nodes as they come and go. `Queue.toList` is the order in
which the nodes come out: extending puts sorted nodes in front of it (`toList_extend`), and popping
takes its first node (`toList_of_pop`).
-/

namespace Fathom

/-- A state that waits to be bounded. -/
structure Node (σ : Type) where
  state : σ
  /-- The dual bound of the node this one was branched from. -/
  dual : Int
  /-- The cost of the state. -/
  primal : Int

namespace Node

variable {σ : Type}

/-- The node of the root of a search. -/
def root (state : σ) : Node σ := ⟨state, 0, 0⟩

/-- By dual, then by primal. -/
def order (a b : Node σ) : Ordering := (compare a.dual b.dual).then (compare a.primal b.primal)

/-- One of the two bounds improves on the best cost known. -/
def promising (best : Option Int) (node : Node σ) : Bool :=
  Cost.beats best node.dual || Cost.beats best node.primal

end Node

/-- The pending nodes, as batches from the newest to the oldest. -/
structure Queue (σ : Type) where
  batches : List (List (Node σ))
  /-- The number of nodes that have come and not gone. -/
  count : Nat

namespace Queue

variable {σ : Type}

/-- The nodes in the order they come out. -/
def toList (q : Queue σ) : List (Node σ) := q.batches.flatten

/-- The number of nodes. -/
def size (q : Queue σ) : Nat := q.toList.length

/-- No node is left, by the count. -/
def isEmpty (q : Queue σ) : Bool := q.count == 0

/-- The queue of the root alone. -/
def ofRoot (state : σ) : Queue σ := ⟨[[Node.root state]], 1⟩

/-- The promising nodes, sorted; nodes that are equal in the order keep the order given. -/
def sorted (nodes : List (Node σ)) (best : Option Int) : List (Node σ) :=
  (nodes.filter (·.promising best)).mergeSort fun a b => (Node.order a b).isLE

/-- Puts the promising nodes in front, as one sorted batch; no batch is made of none. -/
def extend (q : Queue σ) (nodes : List (Node σ)) (best : Option Int) : Queue σ :=
  match sorted nodes best with
  | [] => q
  | batch => ⟨batch :: q.batches, q.count + batch.length⟩

/-- Takes the first node of the newest batch. -/
def pop (q : Queue σ) : Option (Node σ × Queue σ) :=
  match q.batches with
  | [] | [] :: _ => none
  | [node] :: older => some (node, ⟨older, q.count - 1⟩)
  | (node :: next :: more) :: older => some (node, ⟨(next :: more) :: older, q.count - 1⟩)

@[simp] theorem toList_ofRoot (state : σ) : (ofRoot state).toList = [Node.root state] := rfl

theorem toList_extend (q : Queue σ) (nodes : List (Node σ)) (best : Option Int) :
    (q.extend nodes best).toList = sorted nodes best ++ q.toList := by
  unfold extend
  split
  · next h => rw [h, List.nil_append]
  · rfl

theorem toList_of_pop {q rest : Queue σ} {node : Node σ} (h : q.pop = some (node, rest)) :
    q.toList = node :: rest.toList := by
  obtain ⟨batches, count⟩ := q
  unfold pop at h
  split at h
  · simp at h
  · simp at h
  · next older hb =>
    obtain ⟨rfl, rfl⟩ := Prod.mk.inj (Option.some.inj h)
    simp only at hb
    simp [toList, hb]
  · next next more older hb =>
    obtain ⟨rfl, rfl⟩ := Prod.mk.inj (Option.some.inj h)
    simp only at hb
    simp [toList, hb]

end Queue

end Fathom
