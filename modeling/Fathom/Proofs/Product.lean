import Fathom.Proofs.Accounting

/-!
# Workers and batches

Without budgets, the batches of a round make no difference: the round does what one worker would do
who takes all of its nodes (`Search.sweep`). Batches are taken from the queue one after the other,
all of them are bounded against one incumbent, and their bounds are collected in the same order. Two
searches whose rounds take as many nodes then go through the same states, but for their tuning.

Results:
* `round_eq_sweep`: without budgets a round is a sweep;
* `minimize_tuned`: tunings of one capacity make no difference to a call;
* `capacity_decides`: two searches of one root and one capacity.
-/

namespace Fathom

namespace Search

variable {σ δ α β γ : Type} {D : Domain σ δ} {root : σ} {s s' : Search σ δ} {config : Config}

/-! ## Chains of steps -/

theorem andThen_assoc (x : Outcome σ δ α) (f : α → Search σ δ → Outcome σ δ β)
    (g : β → Search σ δ → Outcome σ δ γ) :
    (x.andThen f).andThen g = x.andThen fun a s => (f a s).andThen g := by
  obtain ⟨s, _ | a⟩ := x <;> rfl

theorem andThen_congr {x : Outcome σ δ α} {f g : α → Search σ δ → Outcome σ δ β}
    (h : ∀ a s, x = (s, .ok a) → f a s = g a s) : x.andThen f = x.andThen g := by
  obtain ⟨s, _ | a⟩ := x
  · rfl
  · exact h a s rfl

theorem hear_map (f : α → β) (s : Search σ δ) (x : Traced α) :
    s.hear (f <$> x) = (s.hear x).andThen fun a s => (s, .ok (f a)) := by
  rw [hear, hear, Traced.lines_map, Traced.result_map]
  cases x.result <;> rfl

/-! ## Sweeps -/

theorem take_of_none {count : Nat} (h : s.queue.pop = none) : s.take D count = ([], s) := by
  cases count with
  | zero => rfl
  | succ count => rw [take, h]

/-- Two batches are taken as one. -/
theorem take_add (m n : Nat) (s : Search σ δ) : s.take D (m + n) =
    ((s.take D m).1 ++ ((s.take D m).2.take D n).1, ((s.take D m).2.take D n).2) := by
  induction m generalizing s with
  | zero => rw [Nat.zero_add]; rfl
  | succ m ih =>
    rw [Nat.add_right_comm]
    cases hpop : s.queue.pop with
    | none =>
      rw [take_of_none hpop, take_of_none hpop]
      exact (take_of_none hpop).symm
    | some popped =>
      obtain ⟨node, queue⟩ := popped
      rw [take_of_pop hpop, take_of_pop hpop, ih]
      simp only [List.append_assoc]

theorem config_take (count : Nat) (s : Search σ δ) : (s.take D count).2.config = s.config := by
  obtain ⟨popped, htaken, -⟩ := take_taken D count s
  rw [htaken.rest]

/-- **The batches of all workers are taken as one.** -/
theorem dispatch_eq_take (workers : Nat) (s : Search σ δ) :
    ((s.dispatch D workers).1.flatten, (s.dispatch D workers).2) =
      s.take D (workers * s.config.batchSize) := by
  induction workers generalizing s with
  | zero => rw [Nat.zero_mul]; rfl
  | succ workers ih =>
    have hmore := ih (s.take D s.config.batchSize).2
    rw [config_take] at hmore
    rw [Nat.succ_mul, Nat.add_comm (workers * _), take_add, ← hmore]
    rfl

/-- Bounds the states of a batch, collects the bounds and extends the queue, with no budget. -/
def process (D : Domain σ δ) (batch : List σ) (s : Search σ δ) : Outcome σ δ Unit :=
  (s.hear (Traced.sequence (batch.map fun t => Bound.compute D t (s.best D)))).andThen
    fun bounds s => (s.collect D bounds).andThen fun nodes s => (s.enqueue D nodes, .ok ())

/-- A round of one worker who takes `count` nodes and has no budget. -/
def sweep (D : Domain σ δ) (count : Nat) (s : Search σ δ) : Outcome σ δ Unit :=
  let (batch, s) := { s with rounds := s.rounds + 1 }.take D count
  s.process D batch

theorem collect_append (bounds more : List (Bound σ δ)) (s : Search σ δ) :
    s.collect D (bounds ++ more) = (s.collect D bounds).andThen fun nodes s =>
      (s.collect D more).andThen fun rest s => (s, .ok (nodes ++ rest)) := by
  induction bounds generalizing s with
  | nil =>
    change s.collect D more = (s.collect D more).andThen fun rest s => (s, .ok rest)
    generalize s.collect D more = x
    obtain ⟨s', _ | nodes⟩ := x <;> rfl
  | cons b bounds ih =>
    rw [List.cons_append, collect, collect, andThen_assoc]
    refine andThen_congr fun first s₁ _ => ?_
    rw [ih, andThen_assoc, andThen_assoc]
    refine andThen_congr fun nodes s₂ _ => ?_
    rw [andThen_assoc]
    change _ = (s₂.collect D more).andThen fun rest s => (s, .ok ((first ++ nodes) ++ rest))
    refine andThen_congr fun rest s₃ _ => ?_
    rw [List.append_assoc]
    rfl

/-- **Without budgets the bounds of all workers are collected** as those of one. -/
theorem collectAll_unlimited (hs : s.config.Unlimited) (clock : Nat → Nat) (worker : Nat)
    (batches : List (List (Bound σ δ))) : s.collectAll D clock worker batches =
      (s.collect D batches.flatten).andThen fun nodes s => (s, .ok (nodes, false)) := by
  induction batches generalizing s worker with
  | nil => rfl
  | cons bounds batches ih =>
    rw [collectAll, mustStop_of_unlimited hs, if_neg Bool.false_ne_true, List.flatten_cons,
      collect_append, andThen_assoc]
    refine andThen_congr fun nodes s₁ h => ?_
    rw [ih ((collect_eq_ok h).config ▸ hs), andThen_assoc, andThen_assoc]
    rfl

/-- **Without budgets a round is a sweep.** -/
theorem round_eq_sweep (hs : s.config.Unlimited) (clock : Nat → Nat) : s.round D clock =
    (s.sweep D s.config.capacity).andThen fun _ s => (s, .ok false) := by
  have htake := dispatch_eq_take (D := D) s.config.workers { s with rounds := s.rounds + 1 }
  have hconfig := config_take (D := D) s.config.capacity { s with rounds := s.rounds + 1 }
  change _ = take D s.config.capacity { s with rounds := s.rounds + 1 } at htake
  simp only [Search.round, Search.bound, sweep, process]
  generalize dispatch D s.config.workers { s with rounds := s.rounds + 1 } = d at htake ⊢
  obtain ⟨batches, s₁⟩ := d
  rw [← htake] at hconfig ⊢
  dsimp only at hconfig ⊢
  rw [← boundAll_flatten, hear_map, andThen_assoc, andThen_assoc]
  refine andThen_congr fun bounds s₂ h => ?_
  have hs₂ : s₂.config.Unlimited := by
    obtain ⟨rfl, -⟩ := Prod.mk.inj h
    exact hconfig ▸ hs
  change (s₂.collectAll D clock 0 bounds).andThen _ =
    ((s₂.collect D bounds.flatten).andThen _).andThen _
  rw [collectAll_unlimited hs₂, andThen_assoc, andThen_assoc]
  refine andThen_congr fun nodes s₃ h => ?_
  have hs₃ : (s₃.enqueue D nodes).config.Unlimited := (collect_eq_ok h).config ▸ hs₂
  exact congrArg (fun stopped => (s₃.enqueue D nodes, Except.ok stopped))
    ((Bool.false_or _).trans (mustStop_of_unlimited hs₃ _))

/-! ## Tunings -/

/-- The search with another tuning. -/
def tuned (config : Config) (s : Search σ δ) : Search σ δ := { s with config }

/-- The same outcome of a search with another tuning. -/
def Outcome.tuned (config : Config) (x : Outcome σ δ α) : Outcome σ δ α := (x.1.tuned config, x.2)

theorem andThen_tuned {x : Outcome σ δ α} {f g : α → Search σ δ → Outcome σ δ β}
    (h : ∀ a s, x = (s, .ok a) → f a (s.tuned config) = (g a s).tuned config) :
    (x.tuned config).andThen f = (x.andThen g).tuned config := by
  obtain ⟨s, _ | a⟩ := x
  · rfl
  · exact h a s rfl

theorem take_tuned (count : Nat) (s : Search σ δ) :
    (s.tuned config).take D count = ((s.take D count).1, (s.take D count).2.tuned config) := by
  induction count generalizing s with
  | zero => rfl
  | succ count ih =>
    cases hpop : s.queue.pop with
    | none =>
      rw [take_of_none hpop]
      exact take_of_none hpop
    | some popped =>
      obtain ⟨node, queue⟩ := popped
      have hpop' : (s.tuned config).queue.pop = some (node, queue) := hpop
      have hdrop : (s.tuned config).dropFirst D node queue =
          (s.dropFirst D node queue).tuned config := rfl
      rw [take_of_pop hpop, take_of_pop hpop', hdrop, ih]
      rfl

theorem account_tuned (s : Search σ δ) (b : Bound σ δ) :
    (s.tuned config).account D b = (s.account D b).tuned config := by
  cases hf : b.isFailed with
  | true => rw [account, account, if_pos hf, if_pos hf]; rfl
  | false =>
    have hf' : ¬b.isFailed = true := Bool.eq_false_iff.mp hf
    rw [account, account, if_neg hf', if_neg hf']
    change (if b.isBetterThan D (s.best D) = true then _ else _) =
      tuned config (if b.isBetterThan D (s.best D) = true then _ else _)
    cases b.isBetterThan D (s.best D) <;> rfl

theorem children_tuned (s : Search σ δ) (b : Bound σ δ) :
    (s.tuned config).children D b = s.children D b := rfl

theorem hear_tuned (s : Search σ δ) (x : Traced α) :
    (s.tuned config).hear x = (s.hear x).tuned config := rfl

theorem collect_tuned (bounds : List (Bound σ δ)) (s : Search σ δ) :
    (s.tuned config).collect D bounds = (s.collect D bounds).tuned config := by
  induction bounds generalizing s with
  | nil => rfl
  | cons b bounds ih =>
    rw [collect, collect, account_tuned, children_tuned, hear_tuned]
    refine andThen_tuned fun nodes s₁ _ => ?_
    rw [ih]
    exact andThen_tuned fun _ _ _ => rfl

theorem process_tuned (batch : List σ) (s : Search σ δ) :
    (s.tuned config).process D batch = (s.process D batch).tuned config := by
  rw [process, hear_tuned]
  refine andThen_tuned fun bounds s₁ _ => ?_
  rw [collect_tuned]
  exact andThen_tuned fun _ _ _ => rfl

/-- **A sweep does not depend on the tuning.** -/
theorem sweep_tuned (count : Nat) (s : Search σ δ) :
    (s.tuned config).sweep D count = (s.sweep D count).tuned config := by
  have htake : take D count { s.tuned config with rounds := s.rounds + 1 } = _ :=
    take_tuned count { s with rounds := s.rounds + 1 }
  change process D (take D count { s.tuned config with rounds := s.rounds + 1 }).1
    (take D count { s.tuned config with rounds := s.rounds + 1 }).2 = _
  rw [htake]
  exact process_tuned _ _

theorem conclude_tuned (s : Search σ δ) :
    (s.tuned config).conclude = s.conclude.tuned config := by
  simp only [conclude, tuned]
  split <;> rfl

/-- **Tunings of one capacity make no difference** to a call without budgets. -/
theorem minimize_tuned (config : Config) (hs : s.config.Unlimited) (hconfig : config.Unlimited)
    (hcapacity : config.capacity = s.config.capacity) (clock clock' : Nat → Nat → Nat)
    (fuel : Nat) :
    (s.tuned config).minimize D clock' fuel = (s.minimize D clock fuel).tuned config := by
  induction fuel generalizing s with
  | zero => rfl
  | succ fuel ih =>
    cases hempty : s.queue.isEmpty with
    | true =>
      have hempty' : (s.tuned config).queue.isEmpty = true := hempty
      rw [minimize_of_empty hempty, minimize_of_empty hempty', conclude_tuned]
      rfl
    | false =>
      have hempty' : (s.tuned config).queue.isEmpty = false := hempty
      have hround : (s.tuned config).round D (clock' s.rounds) =
          (s.round D (clock s.rounds)).tuned config := by
        rw [round_eq_sweep hs, round_eq_sweep (s := s.tuned config) hconfig]
        change (sweep D config.capacity (s.tuned config)).andThen _ = _
        rw [hcapacity, sweep_tuned]
        exact andThen_tuned fun _ _ _ => rfl
      rw [minimize, minimize, hempty, hempty', if_neg Bool.false_ne_true,
        if_neg Bool.false_ne_true]
      change ((s.tuned config).round D (clock' s.rounds)).andThen _ = _
      rw [hround]
      refine andThen_tuned fun stopped s₁ h => ?_
      obtain ⟨popped, rest, hturn⟩ := round_turn h
      cases stopped with
      | true => rfl
      | false => exact ih (hturn.config ▸ hs) (hturn.config ▸ hcapacity)

/-- Without budgets, no round is cut off. -/
theorem stopped_eq_false (hs : s.config.Unlimited) {clock : Nat → Nat} {stopped : Bool}
    (h : s.round D clock = (s', .ok stopped)) : stopped = false := by
  rw [round_eq_sweep hs, andThen_eq_ok_iff] at h
  obtain ⟨s₁, a, -, h⟩ := h
  cases h
  rfl

/-- Without budgets, a call that returns has run out of nodes. -/
theorem ending_eq_exhausted {config : Config} (hconfig : config.Unlimited)
    {clock : Nat → Nat → Nat} {fuel : Nat} {ending : Ending}
    (h : (start root config).minimize D clock fuel = (s, .ok ending)) : ending = .exhausted := by
  obtain ⟨n, entered, t, hheads, ⟨hending, -⟩ | ⟨-, -, hround⟩⟩ := minimize_eq_ok .start h
  · exact hending
  · have ht : t.config.Unlimited := hheads.accounted.config_eq ▸ hconfig
    cases stopped_eq_false ht hround

/-- **Workers and batch size matter only through their product.** Two searches of one root without
budgets, whose rounds take as many nodes, go through the same states but for their tuning, whatever
becomes of them; and where the search tree is finite and nothing faults, both come to their end with
the same incumbent, counters and reports. -/
theorem capacity_decides (D : Domain σ δ) (root : σ) (config config' : Config)
    (hconfig : config.Unlimited) (hconfig' : config'.Unlimited)
    (hcapacity : config'.normalized.capacity = config.normalized.capacity)
    (clock clock' : Nat → Nat → Nat) :
    (∀ fuel, (start root config').minimize D clock' fuel =
      ((start root config).minimize D clock fuel).tuned config'.normalized) ∧
    (config.normalized.workers ≤ Config.maxWorkers →
      config'.normalized.workers ≤ Config.maxWorkers → ∀ fuel,
        (start root config').run D clock' fuel =
          ((start root config).run D clock fuel).tuned config'.normalized) ∧
    (D.Calm root → D.Finite root → ∃ rounds, ∀ fuel, rounds ≤ fuel → ∃ s s' : Search σ δ,
      (start root config).minimize D clock fuel = (s, .ok .exhausted) ∧
      (start root config').minimize D clock' fuel = (s', .ok .exhausted) ∧
      s'.incumbent = s.incumbent ∧ s'.nodes = s.nodes ∧ s'.fails = s.fails ∧
      s'.optimal = s.optimal ∧ s'.reports = s.reports) := by
  have hminimize : ∀ fuel, (start root config').minimize D clock' fuel =
      ((start root config).minimize D clock fuel).tuned config'.normalized := by
    intro fuel
    change ((start root config).tuned config'.normalized).minimize D clock' fuel = _
    exact minimize_tuned config'.normalized (s := start root config) hconfig hconfig' hcapacity
      clock clock' fuel
  refine ⟨hminimize, fun hroom hroom' fuel => ?_, fun hcalm hfinite => ?_⟩
  · have hrun : (start root config : Search σ δ).hasRoom = true := decide_eq_true hroom
    have hrun' : (start root config' : Search σ δ).hasRoom = true := decide_eq_true hroom'
    rw [run, run, if_pos hrun, if_pos hrun', hminimize]
  · obtain ⟨rounds, hrounds⟩ := hcalm.minimize_total hfinite (wellFormed_start root config)
      (rooted_start config) clock
    refine ⟨rounds, fun fuel hfuel => ?_⟩
    obtain ⟨s, ending, hmin⟩ := hrounds fuel hfuel
    obtain rfl := ending_eq_exhausted hconfig hmin
    refine ⟨s, s.tuned config'.normalized, hmin, ?_, rfl, rfl, rfl, rfl, rfl⟩
    rw [hminimize, hmin]
    rfl

end Search

namespace Table

/-- Two workers with three nodes each and six workers with one node go through the same search of
the fork, and both find its optimum of cost 5. -/
theorem fork_capacity : (⟨3, 2, 0, 0⟩ : Config).Unlimited ∧ (⟨1, 6, 0, 0⟩ : Config).Unlimited ∧
    (⟨1, 6, 0, 0⟩ : Config).normalized.capacity = (⟨3, 2, 0, 0⟩ : Config).normalized.capacity ∧
    fork.Calm 0 ∧ fork.Finite 0 ∧
    ((Search.start 0 ⟨1, 6, 0, 0⟩).minimize fork (fun _ _ => 0) 4).1.incumbent = some 4 ∧
    (∀ fuel, (Search.start 0 ⟨1, 6, 0, 0⟩).minimize fork (fun _ _ => 0) fuel =
      ((Search.start 0 ⟨3, 2, 0, 0⟩).minimize fork (fun _ _ => 0) fuel).tuned ⟨1, 6, 0, 0⟩) ∧
    ∃ rounds, ∀ fuel, rounds ≤ fuel → ∃ s s' : Search Nat Nat,
      (Search.start 0 ⟨3, 2, 0, 0⟩).minimize fork (fun _ _ => 0) fuel = (s, .ok .exhausted) ∧
      (Search.start 0 ⟨1, 6, 0, 0⟩).minimize fork (fun _ _ => 0) fuel = (s', .ok .exhausted) ∧
      s'.incumbent = s.incumbent ∧ s'.nodes = s.nodes ∧ s'.fails = s.fails ∧
      s'.optimal = s.optimal ∧ s'.reports = s.reports := by
  obtain ⟨hminimize, -, hreturns⟩ := Search.capacity_decides fork 0 ⟨3, 2, 0, 0⟩
    ⟨1, 6, 0, 0⟩ ⟨rfl, rfl⟩ ⟨rfl, rfl⟩ rfl (fun _ _ => 0) fun _ _ => 0
  exact ⟨⟨rfl, rfl⟩, ⟨rfl, rfl⟩, rfl, calm_fork.1, calm_fork.2, by cbv, hminimize,
    hreturns calm_fork.1 calm_fork.2⟩

end Table

end Fathom
