import Mathlib.Data.List.Permutation
import Fathom.Proofs.Optimality
import Fathom.Proofs.Turns

/-!
# Counting nodes

A node comes off the queue once and is counted once: as a fail if it cannot improve when it comes
off or if its bound fails, and as a node otherwise. As long as no budget is spent, the nodes counted
and those on the queue are therefore the root and all that was put on the queue since
(`Heads.accounted`). The round that spends a budget may lose nodes uncounted, but takes no more of
them than any other.

Results:
* `minimize_eq_ok`: a call ends at the head of a round or in the round after it;
* `nodes_accounted`: the nodes of a search all through its first call.
-/

namespace Fathom

namespace Search

variable {σ δ : Type} {D : Domain σ δ} {root : σ} {s s' t : Search σ δ}
  {clock : Nat → Nat → Nat} {entered : List (Node σ)} {n : Nat}

/-! ## The heads of the rounds -/

/-- A call of `minimize` on `s` comes to the head of a round `n` rounds later, when the search
stands at `t` and the nodes `entered` have been put on the queue since. -/
inductive Heads (D : Domain σ δ) (clock : Nat → Nat → Nat) (s : Search σ δ) :
    Nat → List (Node σ) → Search σ δ → Prop
  | start : Heads D clock s 0 [] s
  | round {n : Nat} {entered : List (Node σ)} {t t' : Search σ δ} : Heads D clock s n entered t →
      t.queue.isEmpty = false → t.round D (clock t.rounds) = (t', .ok false) →
      Heads D clock s (n + 1) (entered ++ t.entered D (clock t.rounds)) t'

/-- **What remains of the call** is what a call would do at the head of the round. -/
theorem Heads.minimize (h : Heads D clock s n entered t) (fuel : Nat) :
    s.minimize D clock (n + fuel) = t.minimize D clock fuel := by
  induction h generalizing fuel with
  | start => rw [Nat.zero_add]
  | round _ hempty hround ih =>
    rw [Nat.add_right_comm, Nat.add_assoc, ih, minimize_of_round hempty hround,
      if_neg Bool.false_ne_true]

/-- **How a call ends**: at the head of a round, where the queue is empty, or in the round after
it. -/
theorem minimize_eq_ok {start : Search σ δ} {fuel : Nat} {ending : Ending}
    (hs : Heads D clock start n entered s) (h : s.minimize D clock fuel = (s', .ok ending)) :
    ∃ n entered t, Heads D clock start n entered t ∧
      ((ending = .exhausted ∧ t.queue.isEmpty = true ∧ s' = t.conclude) ∨
        (ending = .cutOff ∧ t.queue.isEmpty = false ∧
          t.round D (clock t.rounds) = (s', .ok true))) := by
  induction fuel generalizing s n entered with
  | zero => cases h
  | succ fuel ih =>
    cases hempty : s.queue.isEmpty with
    | true =>
      rw [minimize_of_empty hempty] at h
      cases h
      exact ⟨n, entered, s, hs, .inl ⟨rfl, hempty, rfl⟩⟩
    | false =>
      rw [Search.minimize, hempty, if_neg Bool.false_ne_true, andThen_eq_ok_iff] at h
      obtain ⟨s₁, stopped, hround, h⟩ := h
      cases stopped with
      | true =>
        cases h
        exact ⟨n, entered, s, hs, .inr ⟨rfl, hempty, hround⟩⟩
      | false => exact ih (hs.round hempty hround) h

/-! ## What is counted -/

/-- A search that goes on has not spent its budget of nodes. -/
theorem counted_lt {elapsed : Nat} (h : s.mustStop elapsed = false)
    (hbudget : 0 < s.config.maxNodes) : s.counted < s.config.maxNodes := by
  simp only [mustStop, Bool.or_eq_false_iff, Bool.and_eq_false_iff, decide_eq_false_iff_not] at h
  exact Nat.not_le.mp (h.2.resolve_left (not_not_intro hbudget))

/-- What is known of a search at the head of a round, once the nodes `entered` have been put on the
queue beside the root. -/
structure Accounted (D : Domain σ δ) (root : σ) (config : Config) (entered : List (Node σ))
    (t : Search σ δ) : Prop where
  wellFormed : WellFormed t
  rooted : t.Rooted D root
  config_eq : t.config = config.normalized
  balance : t.counted + t.queue.size = 1 + entered.length
  budget : 0 < config.maxNodes → t.counted < config.maxNodes

theorem accounted_start (config : Config) :
    Accounted D root config [] (start root config) where
  wellFormed := wellFormed_start root config
  rooted := rooted_start config
  config_eq := rfl
  balance := rfl
  budget h := h

/-- **A round that goes on counts the nodes that it takes.** -/
theorem Accounted.round {config : Config} (h : Accounted D root config entered t)
    {clock : Nat → Nat} (hempty : t.queue.isEmpty = false)
    (hround : t.round D clock = (s', .ok false)) :
    Accounted D root config (entered ++ t.entered D clock) s' := by
  obtain ⟨popped, rest, hturn⟩ := round_turn hround
  have hconfig := hturn.config.trans h.config_eq
  refine ⟨hturn.wellFormed h.wellFormed hempty, hturn.rooted h.rooted, hconfig, ?_,
    fun hbudget => ?_⟩
  · have hbefore : t.queue.size = popped.length + rest.length := by
      rw [Queue.size, hturn.before, List.length_append]
    have hafter : s'.queue.size = (t.entered D clock).length + rest.length := by
      rw [Queue.size, hturn.after, List.length_append]
    have hbalance := h.balance
    have hcounted := hturn.counted rfl
    rw [List.length_append]
    omega
  · have hmax : s'.config.maxNodes = config.maxNodes := by
      rw [hconfig]
      rfl
    exact hmax ▸ counted_lt (hturn.going rfl) (hmax ▸ hbudget)

/-- **Every node is accounted for at the head of every round.** -/
theorem Heads.accounted {config : Config}
    (h : Heads D clock (Search.start root config) n entered t) :
    Accounted D root config entered t := by
  induction h with
  | start => exact accounted_start config
  | round _ hempty hround ih => exact ih.round hempty hround

theorem counted_conclude (s : Search σ δ) : s.conclude.counted = s.counted := by
  unfold conclude
  split <;> rfl

/-- **The end of a call with a budget of nodes** comes before more are counted than the budget and
one more round allow. -/
theorem Accounted.counted_le {config : Config} (h : Accounted D root config entered t)
    {clock : Nat → Nat} {stopped : Bool} (hround : t.round D clock = (s', .ok stopped))
    (hbudget : 0 < config.maxNodes) :
    s'.counted ≤ config.maxNodes - 1 + config.normalized.capacity := by
  obtain ⟨popped, rest, hturn⟩ := round_turn hround
  have hlen := hturn.length h.wellFormed.full
  rw [h.config_eq] at hlen
  have hle := hturn.counted_le
  have hlt := h.budget hbudget
  omega

/-- **A call with a budget of nodes returns**, also if the search tree is not finite. -/
theorem minimize_total_of_budget (h : D.Calm root) (config : Config) (hbudget : 0 < config.maxNodes)
    (clock : Nat → Nat → Nat) : ∃ rounds, ∀ fuel, rounds ≤ fuel →
      ∃ s ending, (start root config).minimize D clock fuel = (s, .ok ending) := by
  refine minimize_total_of_rounds Nat.lt_wfRel.wf (fun s => config.maxNodes - s.counted)
    (fun s => ∃ entered, Accounted D root config entered s) (fun s hs hempty => ?_)
    ⟨[], accounted_start config⟩
  obtain ⟨entered, hs⟩ := hs
  obtain ⟨stopped, s', hround⟩ := h.round hs.rooted (clock s.rounds)
  refine ⟨stopped, s', hround, ?_⟩
  rintro rfl
  refine ⟨⟨_, hs.round hempty hround⟩, ?_⟩
  obtain ⟨popped, rest, hturn⟩ := round_turn hround
  have hpos := List.length_pos_of_ne_nil (hturn.popped_ne_nil hs.wellFormed hempty)
  have hcounted := hturn.counted rfl
  have hlt := hs.budget hbudget
  change config.maxNodes - s'.counted < config.maxNodes - s.counted
  omega

/-- **Every node that enters the queue is accounted for once**, in the first call of a search of any
domain, with any clock. At the head of every round, the nodes counted and those on the queue are the
root and those put on the queue since; the count that the queue keeps is the number of its nodes;
and the round takes as many nodes as its workers have room for, or as there are. A call that is not
cut off has counted them all. With a budget of nodes the call returns and counts at most one round
more than the budget has left room for. -/
theorem nodes_accounted (D : Domain σ δ) (root : σ) (config : Config)
    (clock : Nat → Nat → Nat) :
    (∀ n entered t, Heads D clock (start root config) n entered t →
      (∀ fuel, (start root config).minimize D clock (n + fuel) = t.minimize D clock fuel) ∧
      t.nodes + t.fails + t.queue.size = 1 + entered.length ∧ t.queue.count = t.queue.size ∧
      ∃ popped, t.queue.toList = popped ++ (t.bound D).1.queue.toList ∧
        popped.length = min t.queue.size config.normalized.capacity) ∧
    (∀ fuel s, (start root config).minimize D clock fuel = (s, .ok .exhausted) →
      ∃ n entered t, Heads D clock (start root config) n entered t ∧ t.queue.size = 0 ∧
        s = t.conclude ∧ s.nodes + s.fails = 1 + entered.length) ∧
    (0 < config.maxNodes →
      (∀ fuel s ending, (start root config).minimize D clock fuel = (s, .ok ending) →
        s.nodes + s.fails ≤ config.maxNodes - 1 + config.normalized.capacity) ∧
      (D.Calm root → ∃ rounds, ∀ fuel, rounds ≤ fuel →
        ∃ s ending, (start root config).minimize D clock fuel = (s, .ok ending))) := by
  refine ⟨fun n entered t h => ⟨h.minimize, h.accounted.balance,
      h.accounted.wellFormed.full.count_eq, ?_⟩, fun fuel s h => ?_,
    fun hbudget => ⟨fun fuel s ending h => ?_,
      fun hcalm => minimize_total_of_budget hcalm config hbudget clock⟩⟩
  · obtain ⟨popped, htoList, hlen⟩ := exists_popped D t
    refine ⟨popped, htoList, ?_⟩
    rw [hlen h.accounted.wellFormed.full, h.accounted.config_eq, Nat.min_comm]
  · obtain ⟨n, entered, t, hheads, ⟨-, hempty, rfl⟩ | ⟨hcut, -⟩⟩ := minimize_eq_ok .start h
    · have hnil := (Queue.isEmpty_iff hheads.accounted.wellFormed.full).mp hempty
      have hsize : t.queue.size = 0 := by rw [Queue.size, hnil, List.length_nil]
      have hbalance := hheads.accounted.balance
      rw [hsize, Nat.add_zero, ← counted_conclude] at hbalance
      exact ⟨n, entered, t, hheads, hsize, rfl, hbalance⟩
    · cases hcut
  · obtain ⟨n, entered, t, hheads, ⟨-, -, rfl⟩ | ⟨-, -, hround⟩⟩ := minimize_eq_ok .start h
    · have hlt := hheads.accounted.budget hbudget
      change t.conclude.counted ≤ _
      rw [counted_conclude]
      omega
    · exact hheads.accounted.counted_le hround hbudget

end Search

namespace Table

/-- The search tree of the fork is finite, and none of its states faults. -/
theorem calm_fork : fork.Calm 0 ∧ fork.Finite 0 := by
  have hlevels : IsLayered forkRows forkLevel 2 = true := by decide
  have hlayered : Layered fork 0 2 := layered hlevels (by decide) rfl (by decide)
  have hadmissible : Admissible fork (Reached fork 0) 2 fork.Offers :=
    admissible hlevels (by decide) rfl
  exact (hlayered.levelled.trusted hadmissible).calm (hlayered.levelled.answering hadmissible)
    ⟨0, .root⟩

/-- With a budget of nine nodes, the search of the fork counts all it puts on its queue. -/
theorem fork_accounted : fork.Calm 0 ∧ (0 : Nat) < (⟨2, 1, 0, 9⟩ : Config).maxNodes ∧
    ∃ s : Search Nat Nat,
      (Search.start 0 ⟨2, 1, 0, 9⟩).minimize fork (fun _ _ => 0) 4 = (s, .ok .exhausted) ∧
      s.nodes + s.fails ≤ 10 ∧
      ∃ n entered t, Search.Heads fork (fun _ _ => 0) (Search.start 0 ⟨2, 1, 0, 9⟩) n entered t ∧
        t.queue.size = 0 ∧ s = t.conclude ∧ s.nodes + s.fails = 1 + entered.length := by
  obtain ⟨-, hexhausted, hbudget⟩ :=
    Search.nodes_accounted fork 0 ⟨2, 1, 0, 9⟩ fun _ _ => 0
  have hmin : (Search.start 0 ⟨2, 1, 0, 9⟩).minimize fork (fun _ _ => 0) 4 =
      (((Search.start 0 ⟨2, 1, 0, 9⟩).minimize fork (fun _ _ => 0) 4).1, .ok .exhausted) :=
    Prod.ext rfl (by cbv)
  exact ⟨calm_fork.1, by decide, _, hmin, (hbudget (by decide)).1 4 _ .exhausted hmin,
    hexhausted 4 _ hmin⟩

end Table

end Fathom
