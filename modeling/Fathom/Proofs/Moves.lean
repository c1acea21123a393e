import Fathom.Proofs.Rounds
import Mathlib.Logic.Relation

/-!
# The moves of a search

A call of `Search.minimize` goes from one moment to the next by small moves (`Search.Move`): a node
comes off the queue, lines are announced, a bound is accounted for, the queue is extended. Between
two calls a search may be tuned. A move names the function of the search it belongs to, but says
nothing of what moves are made next, so that what holds of all moves holds of every moment of a
search, however it goes on or ends.

What moves need of a domain is little: a restriction starts at the state that it is built for, and
its mergers return states of their input only (`Domain.Genuine`). Inference and relaxation diagrams
may be anything. The primal of a bound that is not failed then lies below the state that was
bounded.

Results:
* `Bound.primal_below`: primals lie below the root;
* `Search.minimize_moves`: a call is made of moves, also if it ends with a fault.
-/

namespace Fathom

open Relation (ReflTransGen)

variable {σ δ α β : Type} {D : Domain σ δ} {root s t u : σ} {best : Option Int}

/-! ## States below the root -/

namespace Domain

/-- Expansions lead from `s` to `t`, whatever their hints. -/
def Below (D : Domain σ δ) (s t : σ) : Prop := ∃ n, Steps D.Leads n s t

theorem Below.refl (s : σ) : D.Below s s := ⟨0, .refl s⟩

theorem Below.tail (h : D.Below s t) (htu : D.Leads t u) : D.Below s u := by
  obtain ⟨n, hn⟩ := h
  exact ⟨n + 1, hn.tail htu⟩

/-- The restrictions of the states below `root` start at the state itself, and their mergers return
states of their input only. -/
structure Genuine (D : Domain σ δ) (root : σ) : Prop where
  rooted : ∀ {t d}, D.Below root t → D.restrict t = .ok (some d) → d.layer.states = [t]
  selective : ∀ {t d}, D.Below root t → D.restrict t = .ok (some d) →
    ∀ merge ∈ d.mergers, Merger.Selective merge

end Domain

/-! ## Primals -/

namespace Lockstep

/-- What the restriction holds, and the primal that was read from it, lies below `root`. -/
structure Within (D : Domain σ δ) (root : σ) (L : Lockstep σ δ) : Prop where
  selective : ∀ merge ∈ L.restrict.mergers, Merger.Selective merge
  states : ∀ t ∈ L.restrict.layer.states, D.Below root t
  primal : D.Below root L.primal

variable {n : Nat} {L L' : Lockstep σ δ} {b : Bound σ δ}

theorem Within.start (hD : D.Genuine root) (hs : D.Below root s)
    (h : Lockstep.start D s = .ok L) : Within D root L := by
  obtain ⟨infer, relax, restrict, -, -, hd, rfl⟩ := start_eq_ok_iff.mp h
  refine ⟨hD.selective hs hd, fun t (ht : t ∈ restrict.layer.states) => ?_, hs⟩
  rw [hD.rooted hs hd, List.mem_singleton] at ht
  exact ht ▸ hs

/-- **One round keeps to the states below the root.** -/
theorem Within.step (h : Within D root L) (hv : L.verdict D best s = none)
    (hadv : Advances D best (L.note D) L') : Within D root L' := by
  have hrestrict := hadv.restrict
  rw [note_restrict] at hrestrict
  obtain ⟨reached, kept, hreached, hkept, hnext⟩ := Diagram.advance_eq_ok_iff.mp hrestrict
  refine ⟨?_, fun t ht => ?_, ?_⟩
  · rw [hnext]
    exact h.selective
  · rw [hnext] at ht
    obtain ⟨x, hx, next, he, ht⟩ := (Space.mem_of_branchAll hreached t).mp
      (Merger.mem_of_shrink h.selective hkept ht)
    exact (h.states x hx).tail ⟨_, _, next, he, ht⟩
  · obtain ⟨-, -, -, p, hp, -⟩ := verdict_eq_none hv
    rw [hadv.primal, note_primal hp]
    exact h.states p (Layer.best_mem hp)

theorem within_of_run (hD : D.Genuine root) (hs : D.Below root s) (h : Run D best s n L) :
    Within D root L := by
  induction h with
  | start hstart => exact Within.start hD hs hstart
  | step _ hv hadv ih => exact ih.step hv hadv

end Lockstep

namespace Bound

variable {b : Bound σ δ}

/-- The bound is that of a state below `root`. -/
def Below (D : Domain σ δ) (root : σ) (b : Bound σ δ) : Prop :=
  ∃ s best, D.Below root s ∧ (compute D s best).result = .ok b

theorem root_eq (h : (compute D s best).result = .ok b) : b.root = s := by
  obtain ⟨n, L, -, hv⟩ := compute_eq_ok h
  obtain ⟨-, rfl⟩ | ⟨-, hroot, -⟩ := Lockstep.verdict_eq_some hv
  · exact (Lockstep.conclude_cases D L s).1
  · exact hroot

theorem root_below (h : b.Below D root) : D.Below root b.root := by
  obtain ⟨s, best, hs, hb⟩ := h
  rwa [root_eq hb]

/-- **The primal of a bound lies below the root**, unless the bound is failed. -/
theorem primal_below (hD : D.Genuine root) (h : b.Below D root) (hlabel : b.label ≠ .failed) :
    D.Below root b.primal := by
  obtain ⟨s, best, hs, hb⟩ := h
  obtain ⟨n, L, hrun, hv⟩ := compute_eq_ok hb
  obtain ⟨-, rfl⟩ | ⟨-, -, hfailed, -⟩ := Lockstep.verdict_eq_some hv
  · obtain ⟨-, -, ⟨-, hp, -⟩ | ⟨-, -, hfailed⟩ | ⟨-, -, hp, -⟩⟩ := Lockstep.conclude_cases D L s
    · rw [hp]
      exact (Lockstep.within_of_run hD hs hrun).primal
    · exact absurd hfailed hlabel
    · rwa [hp]
  · exact absurd hfailed hlabel

end Bound

/-! ## Moves -/

namespace Search

/-- **A move of a search.** -/
inductive Move (D : Domain σ δ) (root : σ) : Search σ δ → Search σ δ → Prop
  /-- The search is tuned. -/
  | tune {s : Search σ δ} (config : Config) : Move D root s { s with config }
  /-- A round begins. -/
  | enter {s : Search σ δ} : Move D root s { s with rounds := s.rounds + 1 }
  /-- A node comes off the queue, and is counted as a fail if it cannot improve. -/
  | pop {s : Search σ δ} {node : Node σ} {queue : Queue σ} : s.queue.pop = some (node, queue) →
      Move D root s (s.dropFirst D node queue)
  /-- Lines are announced. -/
  | announce {s : Search σ δ} (lines : List String) :
      Move D root s { s with journal := lines.map Event.announced ++ s.journal }
  /-- A bound is accounted for. -/
  | account {s : Search σ δ} {b : Bound σ δ} : s.optimal = false → b.Below D root →
      Move D root s (s.account D b)
  /-- Nodes are put on the queue. -/
  | extend {s : Search σ δ} {nodes : List (Node σ)} : s.optimal = false →
      (∀ node ∈ nodes, D.Below root node.state) →
      Move D root s { s with queue := s.queue.extend nodes (s.best D) }
  /-- The incumbent is reported as the optimum. -/
  | conclude {s : Search σ δ} : s.queue.isEmpty = true → Move D root s s.conclude

/-- Any number of moves. -/
abbrev Moves (D : Domain σ δ) (root : σ) : Search σ δ → Search σ δ → Prop :=
  ReflTransGen (Move D root)

/-- The search has gone on by moves without touching its claim of optimality, and its answer, if it
has one, is as described. -/
structure Proceeds (D : Domain σ δ) (root : σ) (s : Search σ δ) (x : Outcome σ δ α)
    (post : α → Prop) : Prop where
  moves : Moves D root s x.1
  optimal : x.1.optimal = s.optimal
  answer : ∀ a, x.2 = .ok a → post a

namespace Proceeds

variable {s : Search σ δ} {x : Outcome σ δ α} {f : α → Search σ δ → Outcome σ δ β}
  {post : α → Prop} {post' : β → Prop}

theorem answered {a : α} (ha : post a) : Proceeds D root s (s, .ok a) post :=
  ⟨.refl, rfl, fun _ h => Except.ok.inj h ▸ ha⟩

theorem andThen (hx : Proceeds D root s x post)
    (hf : ∀ a s', s'.optimal = s.optimal → post a → Proceeds D root s' (f a s') post') :
    Proceeds D root s (x.andThen f) post' := by
  obtain ⟨s', _ | a⟩ := x
  · exact ⟨hx.moves, hx.optimal, nofun⟩
  · have hrest := hf a s' hx.optimal (hx.answer a rfl)
    exact ⟨hx.moves.trans hrest.moves, hrest.optimal.trans hx.optimal, hrest.answer⟩

/-- Moves may go before. -/
theorem after {s' : Search σ δ} (hmoves : Moves D root s s') (hoptimal : s'.optimal = s.optimal)
    (hx : Proceeds D root s' x post) : Proceeds D root s x post :=
  ⟨hmoves.trans hx.moves, hx.optimal.trans hoptimal, hx.answer⟩

end Proceeds

variable {s s' : Search σ δ} {b : Bound σ δ}

/-! ## Rounds -/

theorem hear_proceeds (s : Search σ δ) (x : Traced α) :
    Proceeds D root s (s.hear x) fun a => x.result = .ok a :=
  ⟨.single (.announce x.lines.reverse), rfl, fun _ h => h⟩

theorem take_moves (count : Nat) (s : Search σ δ) : Moves D root s (s.take D count).2 := by
  induction count generalizing s with
  | zero => exact .refl
  | succ count ih =>
    cases hpop : s.queue.pop with
    | none =>
      rw [take, hpop]
    | some popped =>
      obtain ⟨node, queue⟩ := popped
      rw [take_of_pop hpop]
      exact .head (.pop hpop) (ih _)

theorem dispatch_moves (workers : Nat) (s : Search σ δ) :
    Moves D root s (s.dispatch D workers).2 := by
  induction workers generalizing s with
  | zero => exact .refl
  | succ workers ih => exact (take_moves s.config.batchSize s).trans (ih _)

/-- What is bounded is what comes off the queue. -/
theorem bounds_below {batches : List (List σ)} {bounds : List (List (Bound σ δ))}
    (hbatches : ∀ t ∈ batches.flatten, D.Below root t)
    (h : (s.boundAll D batches).result = .ok bounds) :
    ∀ batch ∈ bounds, ∀ b ∈ batch, b.Below D root := by
  intro bs hbs b hb
  rw [boundAll, Traced.result_sequence, List.mapM_map, mapM_eq_ok_iff] at h
  obtain ⟨batch, hbatch, h⟩ := forall₂_mem_right h hbs
  rw [Function.comp_apply, Traced.result_sequence, List.mapM_map, mapM_eq_ok_iff] at h
  obtain ⟨t, ht, hcompute⟩ := forall₂_mem_right h hb
  exact ⟨t, s.best D, hbatches t (List.mem_flatten.mpr ⟨batch, hbatch, ht⟩), hcompute⟩

theorem bound_proceeds (hwaiting : ∀ node ∈ s.queue.toList, D.Below root node.state) :
    Proceeds D root s (s.bound D) fun bounds =>
      ∀ batch ∈ bounds, ∀ b ∈ batch, b.Below D root := by
  obtain ⟨popped, htaken, hbatches, -⟩ :=
    dispatch_taken D s.config.workers { s with rounds := s.rounds + 1 }
  have hbelow : ∀ t ∈ (dispatch D s.config.workers { s with rounds := s.rounds + 1 }).1.flatten,
      D.Below root t := by
    intro t ht
    rw [hbatches] at ht
    obtain ⟨node, hnode, -, rfl⟩ := mem_chosen.mp ht
    exact hwaiting node (htaken.toList ▸ List.mem_append_left _ hnode)
  have hoptimal : (dispatch D s.config.workers { s with rounds := s.rounds + 1 }).2.optimal =
      s.optimal := by rw [htaken.rest]
  have hhear : Proceeds D root _ _ _ := hear_proceeds
    (dispatch D s.config.workers { s with rounds := s.rounds + 1 }).2
    (boundAll D (dispatch D s.config.workers { s with rounds := s.rounds + 1 }).2
      (dispatch D s.config.workers { s with rounds := s.rounds + 1 }).1)
  refine .after (.head .enter (dispatch_moves _ _)) hoptimal
    ⟨hhear.moves, hhear.optimal, fun bounds h => bounds_below hbelow (hhear.answer bounds h)⟩

/-- The nodes to branch on lie below the root. -/
theorem mem_children {nodes : List (Node σ)} (hb : b.Below D root)
    (h : (s.children D b).result = .ok nodes) : ∀ node ∈ nodes, D.Below root node.state := by
  intro node hnode
  by_cases hl : b.label = .relaxed
  · cases he : D.expand b.root b.inferenceDual (s.best D) with
    | error f =>
      have hr : b.isRelaxed = true := by simp [Bound.isRelaxed, hl]
      rw [children, if_pos hr, Traced.result_bind, Space.result_branch, he] at h
      cases h
    | ok next =>
      rw [children_of_relaxed hl he, Except.ok.injEq] at h
      exact (Bound.root_below hb).tail ⟨_, _, next, he, (mem_branches (h ▸ hnode)).1⟩
  · rw [children_of_settled hl, Except.ok.injEq] at h
    rw [← h] at hnode
    cases hnode

theorem optimal_account (D : Domain σ δ) (s : Search σ δ) (b : Bound σ δ) :
    (s.account D b).optimal = s.optimal := by
  obtain ⟨-, h⟩ | ⟨-, h⟩ | ⟨-, -, h⟩ := account_cases D s b
  · rw [h]
  · rw [h]
    rfl
  · rw [h]

theorem collect_proceeds {bounds : List (Bound σ δ)} (hopen : s.optimal = false)
    (hbounds : ∀ b ∈ bounds, b.Below D root) :
    Proceeds D root s (s.collect D bounds) fun nodes =>
      ∀ node ∈ nodes, D.Below root node.state := by
  induction bounds generalizing s with
  | nil => exact .answered nofun
  | cons b more ih =>
    have hb := hbounds b List.mem_cons_self
    refine .after (.single (.account hopen hb)) (optimal_account D s b) ?_
    refine (hear_proceeds _ _).andThen fun nodes s₁ h₁ hnodes => ?_
    have hopen₁ : s₁.optimal = false := h₁.trans ((optimal_account D s b).trans hopen)
    refine (ih hopen₁ fun b hb => hbounds b (List.mem_cons_of_mem _ hb)).andThen
      fun rest s₂ _ hrest => .answered fun node hnode => ?_
    exact (List.mem_append.mp hnode).elim (mem_children hb hnodes node) (hrest node)

theorem collectAll_proceeds {bounds : List (List (Bound σ δ))} (clock : Nat → Nat) (worker : Nat)
    (hopen : s.optimal = false) (hbounds : ∀ batch ∈ bounds, ∀ b ∈ batch, b.Below D root) :
    Proceeds D root s (s.collectAll D clock worker bounds) fun answer =>
      ∀ node ∈ answer.1, D.Below root node.state := by
  induction bounds generalizing s worker with
  | nil => exact .answered nofun
  | cons batch more ih =>
    rw [collectAll]
    split
    · exact .answered nofun
    · refine (collect_proceeds hopen (hbounds batch List.mem_cons_self)).andThen
        fun nodes s₁ h₁ hnodes => ?_
      refine (ih (worker + 1) (h₁.trans hopen) fun batch hbatch =>
        hbounds batch (List.mem_cons_of_mem _ hbatch)).andThen fun rest s₂ _ hrest => ?_
      exact .answered fun node hnode => (List.mem_append.mp hnode).elim (hnodes node) (hrest node)

theorem settle_proceeds {bounds : List (List (Bound σ δ))} (clock : Nat → Nat)
    (hopen : s.optimal = false) (hbounds : ∀ batch ∈ bounds, ∀ b ∈ batch, b.Below D root) :
    Proceeds D root s (s.settle D clock bounds) fun _ => True := by
  refine (collectAll_proceeds clock 0 hopen hbounds).andThen fun answer s₁ h₁ hnodes => ?_
  exact .after (.single (.extend (h₁.trans hopen) hnodes)) rfl (.answered trivial)

/-- **A round is made of moves.** -/
theorem round_proceeds (clock : Nat → Nat) (hopen : s.optimal = false)
    (hwaiting : ∀ node ∈ s.queue.toList, D.Below root node.state) :
    Proceeds D root s (s.round D clock) fun _ => True :=
  (bound_proceeds hwaiting).andThen fun _ _ h₁ hbounds =>
    settle_proceeds clock (h₁.trans hopen) hbounds

end Search

end Fathom
