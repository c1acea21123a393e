import Fathom.Proofs.Minimize
import Fathom.Proofs.PlainTable

/-!
# The optimum of a layered domain

What a search of a levelled domain returns (`Search.minimize_unlimited`) is told by what its root
offers. In a layered domain that is the cost of the solutions in its tree: the incumbent of a search
that has come to its end is a cheapest solution of the whole problem.

Results:
* `Layered.minimize_optimal`: without budgets, a search ends with a cheapest solution and claims it
  to be optimal, or there is none.
-/

namespace Fathom

variable {σ δ : Type}

/-! ## A single call without budgets -/

namespace Layered

variable {D : Domain σ δ} {root : σ} {depth : Nat}

/-- **A search of a layered domain without budgets ends**, with a cheapest solution that it claims
to be optimal, or with none because there is none. -/
theorem minimize_optimal (h : Layered D root depth)
    (ha : Admissible D (Reached D root) depth D.Offers) (config : Config)
    (hconfig : config.Unlimited) (clock : Nat → Nat → Nat) :
    ∃ rounds, ∀ fuel, rounds ≤ fuel → ∃ s : Search σ δ,
      (Search.start root config).minimize D clock fuel = (s, .ok .exhausted) ∧
      (∀ p, s.incumbent = some p → s.optimal = true ∧ D.Optimum root p) ∧
      (s.incumbent = none → s.optimal = false ∧ ∀ x, ¬D.Solution root x) := by
  obtain ⟨rounds, hrounds⟩ := Search.minimize_unlimited (h.levelled.trusted ha)
    (h.levelled.answering ha) ⟨0, .root⟩ config hconfig clock
  refine ⟨rounds, fun fuel hfuel => ?_⟩
  obtain ⟨s, hmin, hsome, hnone⟩ := hrounds fuel hfuel
  refine ⟨s, hmin, fun p hp => ?_, fun hp => ?_⟩
  · obtain ⟨hoptimal, ⟨n, hreached⟩, hsolved, hleast⟩ := hsome p hp
    have hsolution : D.Solution root p := h.solution_root hreached ⟨0, .refl p, hsolved⟩
    exact ⟨hoptimal, hsolution, fun x hx => hleast (D.cost x) ⟨x, hx, rfl⟩⟩
  · obtain ⟨hoptimal, hoffers⟩ := hnone hp
    exact ⟨hoptimal, fun x hx => hoffers (D.cost x) ⟨x, hx, rfl⟩⟩

end Layered

namespace Table

/-- A cheap dead end, and two solutions behind the dearer branch: a restriction of width one sees
the dead end only. -/
def forkRows : List PlainRow :=
  [(0, false, [1, 2]), (1, false, []), (2, false, [3, 4]), (9, true, []), (5, true, [])]

/-- The fork, with restrictions of width one. -/
abbrev fork : Domain Nat Nat := (plain 1 forkRows).domain 3

/-- The depths of the states of the fork. -/
def forkLevel (id : Nat) : Nat := [0, 1, 1, 2, 2].getD id 0

/-- The fork with inference and relaxation diagrams, which see both branches. -/
abbrev surveyedFork : Domain Nat Nat := (surveyed 1 forkRows).domain 3

/-- Two workers with three nodes each find the optimum of the fork, with the help of an inference
and a relaxation diagram. -/
theorem minimize_fork : (⟨3, 2, 0, 0⟩ : Config).Unlimited ∧ Layered surveyedFork 0 2 ∧
    Admissible surveyedFork (Reached surveyedFork 0) 2 surveyedFork.Offers ∧
    surveyedFork.infer 0 = .ok (some (Diagram.root 0 [] 0)) ∧
    surveyedFork.relax 0 = .ok (some (Diagram.root 0 [] 0)) ∧
    ∃ rounds, ∀ fuel, rounds ≤ fuel → ∃ s : Search Nat Nat,
      (Search.start 0 ⟨3, 2, 0, 0⟩).minimize surveyedFork (fun _ _ => 0) fuel =
        (s, .ok .exhausted) ∧
      (∀ p, s.incumbent = some p → s.optimal = true ∧ surveyedFork.Optimum 0 p) ∧
      (s.incumbent = none → s.optimal = false ∧ ∀ x, ¬surveyedFork.Solution 0 x) := by
  have hlevels : IsLayered forkRows forkLevel 2 = true := by decide
  have hlayered : Layered surveyedFork 0 2 := layered_surveyed hlevels (by decide) rfl (by decide)
  have hadmissible : Admissible surveyedFork (Reached surveyedFork 0) 2 surveyedFork.Offers :=
    admissible_surveyed hlevels (by decide) rfl (by decide)
  exact ⟨⟨rfl, rfl⟩, hlayered, hadmissible, rfl, rfl,
    hlayered.minimize_optimal hadmissible ⟨3, 2, 0, 0⟩ ⟨rfl, rfl⟩ fun _ _ => 0⟩

end Table

end Fathom
