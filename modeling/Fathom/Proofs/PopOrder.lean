import Fathom.Proofs.Queue
import Fathom.Proofs.Sorting
import Mathlib.Data.Finset.Card
import Mathlib.Data.Prod.Lex

/-!
# Queues as lines

To those who use it a queue is one line of nodes (`Line`): an extension lets the candidates that may
improve step in front, sorted stably by their bounds, and a pop takes the first node. Each node of
the line keeps the number of the extension it came with, so that one can tell which extensions still
have nodes waiting. `Line.Serves` is what the line does with a sequence of requests, `Queue.serve`
what the queue does.

The batches of the queue are the nodes of the line, grouped by their extensions (`Stacked`).

Results:
* `Tracks.extend`, `Tracks.pop`: each request keeps the queue and the line together;
* `refines_line`: the queue answers any sequence of requests as the line does.
-/

namespace Fathom

variable {σ : Type}

namespace Node

/-- The bounds by which nodes are sorted: by dual, then by primal. -/
def bounds (node : Node σ) : Int ×ₗ Int := toLex (node.dual, node.primal)

/-- Both bounds reach the best cost known. -/
def reaches (best : Option Int) (node : Node σ) : Bool :=
  best.any fun b => decide (b ≤ node.dual) && decide (b ≤ node.primal)

theorem promising_eq (best : Option Int) (node : Node σ) :
    node.promising best = !node.reaches best := by
  cases best with
  | none => rfl
  | some b =>
    simp only [promising, Cost.beats_some, reaches, Option.any_some, Bool.not_and,
      ← decide_not, Int.not_le]

theorem isLE_order_iff (a b : Node σ) : (order a b).isLE = true ↔ a.bounds ≤ b.bounds := by
  rw [bounds, bounds, Prod.Lex.toLex_le_toLex, order, Ordering.isLE_then_iff_and]
  simp only [Std.isLE_compare, Std.compare_eq_lt]
  omega

end Node

namespace Queue

variable {q rest : Queue σ} {node : Node σ} {nodes : List (Node σ)} {best : Option Int}

/-- What is asked of a queue. -/
inductive Request (σ : Type)
  | extend (nodes : List (Node σ)) (best : Option Int)
  | pop

/-- What comes out at each pop, and the queue that is left in the end. -/
def serve (q : Queue σ) : List (Request σ) → List (Option (Node σ)) × Queue σ
  | [] => ([], q)
  | .extend nodes best :: more => (q.extend nodes best).serve more
  | .pop :: more =>
    match q.pop with
    | none => (none :: (q.serve more).1, (q.serve more).2)
    | some (node, rest) => (some node :: (rest.serve more).1, (rest.serve more).2)

/-- **A new batch is a stable sort** of the candidates, without those that reach the best cost. -/
theorem stablySorted_sorted (nodes : List (Node σ)) (best : Option Int) :
    StablySorted Node.bounds (nodes.filter fun node => !node.reaches best) (sorted nodes best) := by
  have hfilter : (nodes.filter fun node => node.promising best) =
      nodes.filter fun node => !node.reaches best :=
    List.filter_congr fun node _ => node.promising_eq best
  rw [sorted, hfilter]
  exact stablySorted_mergeSort Node.isLE_order_iff _

end Queue

/-! ## Lines -/

/-- The nodes that wait, in the order they come out, each with the number of the extension it came
with. The root came with extension 0. -/
structure Line (σ : Type) where
  entries : List (Nat × Node σ)
  /-- The number of the next extension. -/
  next : Nat

namespace Line

/-- The line of the root alone. -/
def ofRoot (state : σ) : Line σ := ⟨[(0, Node.root state)], 1⟩

/-- The nodes in the order they come out. -/
def nodes (line : Line σ) : List (Node σ) := line.entries.map Prod.snd

/-- The number of extensions of which a node waits. -/
def waiting (line : Line σ) : Nat := (line.entries.map Prod.fst).toFinset.card

/-- The line answers these requests, and `last` is what is left of it. -/
inductive Serves : Line σ → List (Queue.Request σ) → List (Option (Node σ)) → Line σ → Prop
  | done (line : Line σ) : Serves line [] [] line
  | extend {entries : List (Nat × Node σ)} {n : Nat} {nodes batch : List (Node σ)}
      {best : Option Int} {more : List (Queue.Request σ)} {answers : List (Option (Node σ))}
      {last : Line σ} :
      StablySorted Node.bounds (nodes.filter fun node => !node.reaches best) batch →
      Serves ⟨batch.map (n, ·) ++ entries, n + 1⟩ more answers last →
      Serves ⟨entries, n⟩ (.extend nodes best :: more) answers last
  | pop {k n : Nat} {node : Node σ} {entries : List (Nat × Node σ)}
      {more : List (Queue.Request σ)} {answers : List (Option (Node σ))} {last : Line σ} :
      Serves ⟨entries, n⟩ more answers last →
      Serves ⟨(k, node) :: entries, n⟩ (.pop :: more) (some node :: answers) last
  | dry {n : Nat} {more : List (Queue.Request σ)} {answers : List (Option (Node σ))}
      {last : Line σ} :
      Serves ⟨[], n⟩ more answers last → Serves ⟨[], n⟩ (.pop :: more) (none :: answers) last

end Line

/-! ## Batches -/

/-- The batches are the entries of a line by extension, newer ones in front: each is sorted and
holds a node, and all numbers are below `n`. -/
inductive Stacked : Nat → List (List (Node σ)) → List (Nat × Node σ) → Prop
  | nil {n : Nat} : Stacked n [] []
  | cons {n k : Nat} {batch : List (Node σ)} {older : List (List (Node σ))}
      {entries : List (Nat × Node σ)} : k < n → batch ≠ [] →
      batch.Pairwise (fun a b => a.bounds ≤ b.bounds) → Stacked k older entries →
      Stacked n (batch :: older) (batch.map (k, ·) ++ entries)

namespace Stacked

variable {m n : Nat} {batches : List (List (Node σ))} {entries : List (Nat × Node σ)}

theorem mono (h : Stacked n batches entries) (hle : n ≤ m) : Stacked m batches entries := by
  cases h with
  | nil => exact .nil
  | cons hk hne hsorted holder => exact .cons (Nat.lt_of_lt_of_le hk hle) hne hsorted holder

theorem map_snd (h : Stacked n batches entries) : entries.map Prod.snd = batches.flatten := by
  induction h with
  | nil => rfl
  | cons _ _ _ _ ih =>
    rw [List.map_append, ih, List.map_map, List.flatten_cons]
    exact congrArg (· ++ _) (List.map_id _)

theorem batch (h : Stacked n batches entries) : ∀ batch ∈ batches,
    batch ≠ [] ∧ batch.Pairwise fun a b => a.bounds ≤ b.bounds := by
  induction h with
  | nil => simp
  | cons _ hne hsorted _ ih => exact List.forall_mem_cons.mpr ⟨⟨hne, hsorted⟩, ih⟩

theorem lt (h : Stacked n batches entries) : ∀ k ∈ entries.map Prod.fst, k < n := by
  induction h with
  | nil => simp
  | cons hk _ _ _ ih =>
    intro j hj
    rw [List.map_append, List.mem_append] at hj
    rcases hj with hj | hj
    · obtain ⟨_, hentry, rfl⟩ := List.mem_map.mp hj
      obtain ⟨_, -, rfl⟩ := List.mem_map.mp hentry
      exact hk
    · exact Nat.lt_trans (ih j hj) hk

/-- The first entry stands at the front of the newest batch. -/
theorem cons_inv {k : Nat} {node : Node σ} (h : Stacked n batches ((k, node) :: entries)) :
    ∃ more older rest, batches = (node :: more) :: older ∧ entries = more.map (k, ·) ++ rest ∧
      k < n ∧ more.Pairwise (fun a b => a.bounds ≤ b.bounds) ∧ Stacked k older rest := by
  generalize hline : (k, node) :: entries = line at h
  cases h with
  | nil => cases hline
  | @cons _ j batch older rest hj hne hsorted holder =>
    obtain ⟨first, more, rfl⟩ := List.exists_cons_of_ne_nil hne
    obtain ⟨hfirst, rfl⟩ := List.cons.inj hline
    cases hfirst
    exact ⟨more, older, rest, rfl, rfl, hj, (List.pairwise_cons.mp hsorted).2, holder⟩

/-- **There are as many batches as extensions of which a node waits.** -/
theorem card (h : Stacked n batches entries) :
    (entries.map Prod.fst).toFinset.card = batches.length := by
  induction h with
  | nil => rfl
  | @cons n k batch older entries _ hne _ holder ih =>
    have hnew : k ∉ (entries.map Prod.fst).toFinset := fun hk =>
      Nat.lt_irrefl k (holder.lt k (List.mem_toFinset.mp hk))
    have htags : ((batch.map (k, ·) ++ entries).map Prod.fst).toFinset =
        insert k (entries.map Prod.fst).toFinset := by
      obtain ⟨node, more, rfl⟩ := List.exists_cons_of_ne_nil hne
      ext j
      simp only [List.mem_toFinset, List.map_append, List.map_map, List.mem_append,
        Finset.mem_insert, List.mem_map, Function.comp_apply]
      constructor
      · rintro (⟨_, -, rfl⟩ | hj)
        · exact .inl rfl
        · exact .inr hj
      · rintro (rfl | hj)
        · exact .inl ⟨node, List.mem_cons_self, rfl⟩
        · exact .inr hj
    rw [htags, Finset.card_insert_of_notMem hnew, ih, List.length_cons]

end Stacked

/-! ## Runs -/

namespace Queue

variable {q rest : Queue σ} {entries : List (Nat × Node σ)} {n : Nat} {line : Line σ}

/-- The queue holds what the line does. -/
structure Tracks (q : Queue σ) (line : Line σ) : Prop where
  full : q.Full
  stacked : Stacked line.next q.batches line.entries

namespace Tracks

theorem ofRoot (root : σ) : Tracks (Queue.ofRoot root) (Line.ofRoot root) where
  full := full_ofRoot root
  stacked := .cons Nat.zero_lt_one (List.cons_ne_nil _ _) (List.pairwise_singleton _ _) .nil

theorem toList (h : Tracks q line) : q.toList = line.nodes := h.stacked.map_snd.symm

/-- **Extending** puts a stable sort of the candidates in front. -/
theorem extend (h : Tracks q ⟨entries, n⟩) (nodes : List (Node σ)) (best : Option Int) :
    Tracks (q.extend nodes best) ⟨(sorted nodes best).map (n, ·) ++ entries, n + 1⟩ := by
  refine ⟨h.full.extend nodes best, ?_⟩
  have hsorted := stablySorted_sorted nodes best
  unfold Queue.extend
  split
  · rename_i hnil
    rw [hnil]
    exact h.stacked.mono (Nat.le_succ n)
  · rename_i hne
    exact .cons (Nat.lt_succ_self n) hne hsorted.increasing h.stacked

/-- **A pop** takes the first node of the line. -/
theorem pop {k : Nat} {node : Node σ} (h : Tracks q ⟨(k, node) :: entries, n⟩) :
    ∃ rest, q.pop = some (node, rest) ∧ Tracks rest ⟨entries, n⟩ := by
  obtain ⟨batches, count⟩ := q
  obtain ⟨more, older, rest, rfl, rfl, hk, hsorted, holder⟩ := h.stacked.cons_inv
  cases more with
  | nil => exact ⟨⟨older, count - 1⟩, rfl, h.full.pop rfl, holder.mono (Nat.le_of_lt hk)⟩
  | cons second more =>
    exact ⟨⟨(second :: more) :: older, count - 1⟩, rfl, h.full.pop rfl,
      .cons hk (List.cons_ne_nil _ _) hsorted holder⟩

/-- Nothing comes out of a queue when the line is empty. -/
theorem pop_eq_none (h : Tracks q ⟨[], n⟩) : q.pop = none :=
  (pop_eq_none_iff h.full).mpr h.toList

/-- **The queue serves as the line does**, and as nothing else does. -/
theorem serve (h : Tracks q line) (requests : List (Request σ)) :
    ∃ last, Tracks (q.serve requests).2 last ∧ ∀ answers last',
      Line.Serves line requests answers last' ↔ answers = (q.serve requests).1 ∧ last' = last := by
  induction requests generalizing q line with
  | nil =>
    refine ⟨line, h, fun answers last' => ⟨fun hs => ?_, ?_⟩⟩
    · cases hs
      exact ⟨rfl, rfl⟩
    · rintro ⟨rfl, rfl⟩
      exact .done _
  | cons request more ih =>
    obtain ⟨entries, n⟩ := line
    cases request with
    | extend nodes best =>
      obtain ⟨last, hlast, hiff⟩ := ih (h.extend nodes best)
      refine ⟨last, hlast, fun answers last' => ⟨fun hs => ?_, fun hs => ?_⟩⟩
      · cases hs with
        | extend hbatch hs =>
          rw [hbatch.unique (stablySorted_sorted nodes best)] at hs
          exact (hiff answers last').mp hs
      · exact .extend (stablySorted_sorted nodes best) ((hiff answers last').mpr hs)
    | pop =>
      cases entries with
      | nil =>
        obtain ⟨last, hlast, hiff⟩ := ih h
        rw [Queue.serve, h.pop_eq_none]
        refine ⟨last, hlast, fun answers last' => ⟨fun hs => ?_, ?_⟩⟩
        · cases hs with
          | dry hs => exact ((hiff _ last').mp hs).imp_left fun he => by rw [he]
        · rintro ⟨rfl, rfl⟩
          exact .dry ((hiff _ _).mpr ⟨rfl, rfl⟩)
      | cons entry entries =>
        obtain ⟨k, node⟩ := entry
        obtain ⟨rest, hpop, hrest⟩ := h.pop
        obtain ⟨last, hlast, hiff⟩ := ih hrest
        rw [Queue.serve, hpop]
        refine ⟨last, hlast, fun answers last' => ⟨fun hs => ?_, ?_⟩⟩
        · cases hs with
          | pop hs => exact ((hiff _ last').mp hs).imp_left fun he => by rw [he]
        · rintro ⟨rfl, rfl⟩
          exact .pop ((hiff _ _).mpr ⟨rfl, rfl⟩)

end Tracks

/-- **A queue is a line.** It gives the nodes that the line gives for any sequence of requests. In
the end its count is the number of nodes that wait, which tells whether it is empty; no batch is
empty, each is sorted, and there are as many as extensions, the root among them, of which a node
waits. -/
theorem refines_line (root : σ) (requests : List (Request σ)) :
    ∃ answers q line, (ofRoot root).serve requests = (answers, q) ∧
      (∀ answers' line', Line.Serves (Line.ofRoot root) requests answers' line' ↔
        answers' = answers ∧ line' = line) ∧
      q.toList = line.nodes ∧ q.count = line.nodes.length ∧
      (q.isEmpty = true ↔ line.nodes = []) ∧
      (∀ batch ∈ q.batches, batch ≠ [] ∧ batch.Pairwise fun a b => a.bounds ≤ b.bounds) ∧
      q.batches.length = line.waiting := by
  obtain ⟨line, hlast, hiff⟩ := (Tracks.ofRoot root).serve requests
  refine ⟨_, _, line, rfl, hiff, hlast.toList, ?_, ?_, hlast.stacked.batch, hlast.stacked.card.symm⟩
  · rw [hlast.full.count_eq, size, hlast.toList]
  · rw [isEmpty_iff hlast.full, hlast.toList]

end Queue

end Fathom
