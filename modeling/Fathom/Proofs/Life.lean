import Mathlib.Data.List.Permutation
import Fathom.Proofs.Optimality

/-!
# The life of a search

A search lives through any number of calls of `Search.minimize`, each with its own clock, and may be
tuned anew between them (`Life`). The queue, the incumbent and the counters are kept. The nodes that
a round has taken off the queue are not put back when a budget is spent before their bounds are
collected: a later call goes on without them. A life therefore keeps account of what was `lost`.

Results:
* `Life.minimize_total`: each call returns;
* `Life.claims_iff`: a claim of optimality is right exactly if no lost state has a cheaper solution
  below it, and a search that ends without a solution is right exactly if no lost state has one.
-/

namespace Fathom

variable {σ δ : Type}

/-- The search `s` has lived through calls and tunings and has lost the states `lost` on the way. -/
inductive Life (D : Domain σ δ) (root : σ) : Search σ δ → List σ → Prop
  | start (config : Config) : Life D root (Search.start root config) []
  | batchSize {s : Search σ δ} {lost : List σ} (n : Nat) : Life D root s lost →
      Life D root { s with config := s.config.withBatchSize n } lost
  | workers {s : Search σ δ} {lost : List σ} (n : Nat) : Life D root s lost →
      Life D root { s with config := s.config.withWorkers n } lost
  | maxMillis {s : Search σ δ} {lost : List σ} (n : Nat) : Life D root s lost →
      Life D root { s with config := s.config.withMaxMillis n } lost
  | maxNodes {s : Search σ δ} {lost : List σ} (n : Nat) : Life D root s lost →
      Life D root { s with config := s.config.withMaxNodes n } lost
  | minimize {s s' : Search σ δ} {lost : List σ} {clock : Nat → Nat → Nat} {fuel : Nat}
      {ending : Ending} : Life D root s lost → s.minimize D clock fuel = (s', .ok ending) →
      Life D root s' (s.lostIn D clock fuel ++ lost)

namespace Life

variable {D : Domain σ δ} {root : σ} {s s' : Search σ δ} {lost : List σ}
  {explored : σ → Prop} {offers : σ → Int → Prop} {rank : σ → Nat}

/-- **What is known all through the life of a search.** -/
theorem covered (ht : D.Trusted explored offers) (ha : D.Answering explored rank)
    (hroot : explored root) (h : Life D root s lost) :
    s.WellFormed ∧ s.Covered D explored offers root (s.waiting ++ lost) := by
  induction h with
  | start config =>
    refine ⟨Search.wellFormed_start root config, ?_⟩
    rw [List.append_nil]
    exact Search.covered_start config hroot
  | batchSize n _ ih => exact ⟨ih.1.tune ih.1.workers (Nat.le_max_left ..), ih.2.congr rfl⟩
  | workers n _ ih => exact ⟨ih.1.tune (Nat.le_max_left ..) ih.1.batchSize, ih.2.congr rfl⟩
  | maxMillis n _ ih => exact ⟨ih.1.tune ih.1.workers ih.1.batchSize, ih.2.congr rfl⟩
  | maxNodes n _ ih => exact ⟨ih.1.tune ih.1.workers ih.1.batchSize, ih.2.congr rfl⟩
  | minimize _ hmin ih =>
    have hm := ih.2.minimize ht ha ih.1 hmin
    exact ⟨hm.wellFormed, hm.covered⟩

/-- **Each call returns**, at any time of the life of a search. -/
theorem minimize_total (ht : D.Trusted explored offers) (ha : D.Answering explored rank)
    (hroot : explored root) (h : Life D root s lost) (clock : Nat → Nat → Nat) :
    ∃ rounds, ∀ fuel, rounds ≤ fuel →
      ∃ s' ending, s.minimize D clock fuel = (s', .ok ending) :=
  (h.covered ht ha hroot).2.minimize_total ht ha clock (h.covered ht ha hroot).1

/-- **When the claims of a search are right.** If `minimize` leaves a search that claims optimality,
its incumbent is an optimum exactly if no solution below a lost state is cheaper; if it runs out of
nodes without a solution, there is none exactly if none lies below a lost state. -/
theorem claims_iff {depth : Nat} (h : Layered D root depth)
    (ha : Admissible D (Reached D root) depth D.Offers) (hl : Life D root s lost)
    {clock : Nat → Nat → Nat} {fuel : Nat} {ending : Ending}
    (hmin : s.minimize D clock fuel = (s', .ok ending)) :
    (s'.optimal = true → ∃ p, s'.incumbent = some p ∧ (D.Optimum root p ↔
      ∀ t ∈ lost, ∀ x, D.Solution t x → D.cost p ≤ D.cost x)) ∧
    (ending = .exhausted → s'.incumbent = none → ((∀ x, ¬D.Solution root x) ↔
      ∀ t ∈ lost, ∀ x, ¬D.Solution t x)) := by
  have ht := h.levelled.trusted ha
  have hanswering := h.levelled.answering ha
  obtain ⟨hwf, hcovered⟩ := hl.covered ht hanswering ⟨0, .root⟩
  have hm := hcovered.minimize ht hanswering hwf hmin
  -- what was lost lies below the root
  have hlost : ∀ t ∈ lost, ∀ x, D.Solution t x → D.Solution root x := by
    intro t ht x hx
    obtain ⟨n, hn⟩ := hcovered.explored t (List.mem_append_right _ ht)
    exact h.solution_root hn hx
  -- and only what was lost may improve
  have hleast : ending = .exhausted → ∀ x, D.Solution root x →
      Cost.beats (s'.best D) (D.cost x) = true → ∃ t ∈ lost, D.Offers t (D.cost x) := by
    rintro rfl x hx hb
    have hcovered := hm.covered
    rw [Search.lostIn_of_exhausted hmin] at hcovered
    exact hcovered.least (hm.exhausted rfl).1 ⟨x, hx, rfl⟩ hb
  constructor
  · intro ho
    obtain ⟨-, p, hp⟩ := hm.wellFormed.optimal ho
    obtain ⟨⟨n, hreached⟩, hsolved⟩ := hm.covered.incumbent p hp
    have hsolution : D.Solution root p := h.solution_root hreached ⟨0, .refl p, hsolved⟩
    refine ⟨p, hp, fun hopt t ht x hx => hopt.2 x (hlost t ht x hx), fun hall => ?_⟩
    refine ⟨hsolution, fun x hx => Int.not_lt.mp fun hlt => ?_⟩
    have hb : Cost.beats (s'.best D) (D.cost x) = true := by
      rw [Search.best, hp, Option.map_some, Cost.beats_some, decide_eq_true_eq]
      exact hlt
    obtain ⟨t, ht, y, hy, hcost⟩ := hleast (hm.claims ho) x hx hb
    have := hall t ht y hy
    omega
  · intro he hnone
    refine ⟨fun hnot t ht x hx => hnot x (hlost t ht x hx), fun hnot x hx => ?_⟩
    have hb : Cost.beats (s'.best D) (D.cost x) = true := by
      rw [Search.best, hnone]
      rfl
    obtain ⟨t, ht, y, hy, -⟩ := hleast he x hx hb
    exact hnot t ht y hy

end Life

namespace Table

/-- Two branches: the cheaper one leads to the dearer solution. -/
def detourRows : List PlainRow :=
  [(0, false, [1, 2]), (0, false, [3]), (1, false, [4]), (10, true, []), (2, true, [])]

/-- The detour, with restrictions of width one. -/
abbrev detour : Domain Nat Nat := (plain 1 detourRows).domain 3

/-- The depths of the states of the detour. -/
def detourLevel (id : Nat) : Nat := [0, 1, 1, 2, 2].getD id 0

/-- The search of the detour after `n` calls, with a budget of one node. -/
def detourCalls : Nat → Search Nat Nat
  | 0 => Search.start 0 ⟨1, 1, 0, 1⟩
  | n + 1 => ((detourCalls n).minimize detour (fun _ _ => 0) 2).1

theorem layered_detour : Layered detour 0 2 :=
  layered (by decide : IsLayered detourRows detourLevel 2 = true) (by decide) rfl (by decide)

/-- The second and the third call lose the node they take off the queue. -/
theorem life_detour : Life detour 0 (detourCalls 3) [2, 1] := by
  have hstart : Life detour 0 (detourCalls 0) [] := .start _
  have hcall : ∀ {n lost lost'}, Life detour 0 (detourCalls n) lost →
      ((detourCalls n).minimize detour (fun _ _ => 0) 2).2 = .ok .cutOff →
      (detourCalls n).lostIn detour (fun _ _ => 0) 2 = lost' →
      Life detour 0 (detourCalls (n + 1)) (lost' ++ lost) :=
    fun h hmin hlost => hlost ▸ h.minimize (Prod.ext rfl hmin)
  have hfirst : Life detour 0 (detourCalls 1) [] := hcall hstart (by cbv) (by cbv)
  have hsecond : Life detour 0 (detourCalls 2) [1] := hcall hfirst (by cbv) (by cbv)
  exact hcall hsecond (by cbv) (by cbv)

/-- **An optimum is claimed that is none**: the fourth call returns the solution of cost 10 although
one of cost 2 was lost with its branch. -/
theorem detour_claims_wrongly : Layered detour 0 2 ∧ Life detour 0 (detourCalls 3) [2, 1] ∧
    (detourCalls 3).minimize detour (fun _ _ => 0) 2 = (detourCalls 4, .ok .exhausted) ∧
    (detourCalls 4).optimal = true ∧ (detourCalls 4).incumbent = some 3 ∧
    detour.Solution 0 4 ∧ detour.cost 4 < detour.cost 3 := by
  have hfirst : detour.Precedes 0 2 := ⟨[1, 2], by cbv, by decide⟩
  have hsecond : detour.Precedes 2 4 := ⟨[4], by cbv, by decide⟩
  have hsolution : detour.Solution 0 4 := ⟨2, .head hfirst (.head hsecond (.refl 4)), by cbv⟩
  exact ⟨layered_detour, life_detour, Prod.ext rfl (by cbv), by cbv, by cbv, hsolution, by cbv⟩

/-- The condition that the fourth call would have to meet. -/
theorem detour_claims_iff : Layered detour 0 2 ∧ Life detour 0 (detourCalls 3) [2, 1] ∧
    ((detourCalls 4).optimal = true → ∃ p, (detourCalls 4).incumbent = some p ∧
      (detour.Optimum 0 p ↔
        ∀ t ∈ [2, 1], ∀ x, detour.Solution t x → detour.cost p ≤ detour.cost x)) ∧
    (Ending.exhausted = .exhausted → (detourCalls 4).incumbent = none →
      ((∀ x, ¬detour.Solution 0 x) ↔ ∀ t ∈ [2, 1], ∀ x, ¬detour.Solution t x)) := by
  have hadmissible : Admissible detour (Reached detour 0) 2 detour.Offers :=
    admissible (by decide : IsLayered detourRows detourLevel 2 = true) (by decide) rfl
  have hcall : (detourCalls 3).minimize detour (fun _ _ => 0) 2 =
      (detourCalls 4, .ok .exhausted) := Prod.ext rfl (by cbv)
  exact ⟨layered_detour, life_detour, Life.claims_iff layered_detour hadmissible life_detour hcall⟩

end Table

end Fathom
