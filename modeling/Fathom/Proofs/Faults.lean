import Fathom.Proofs.Accounting
import Fathom.Proofs.Life

/-!
# Searches that do not fault

A search faults in its domain only: where it bounds a state or branches on one. So all its calls
return, at any time of its life, if the domain is calm and the search tree finite.

A domain may read tables without a check, and then a read outside them is no fault. `Domain.guard`
makes it one: the guarded domain faults wherever a state fails a test that says whether its reads
lie within the tables. That a guarded search does not fault says that all states it meets pass the
test.

Results:
* `Life.rooted`: a search keeps to its tree all through its life;
* `Calm.returns`: in a calm domain with a finite tree all calls return.
-/

namespace Fathom

variable {σ δ : Type} {D : Domain σ δ} {root : σ} {s s' t : Search σ δ} {lost : List σ}
  {clock : Nat → Nat → Nat}

/-! ## Lives -/

namespace Search

/-- What is known of a search is known at the head of each round. -/
theorem Heads.rooted {n : Nat} {entered : List (Node σ)} (h : Heads D clock s n entered t)
    (hwf : WellFormed s) (hs : s.Rooted D root) : WellFormed t ∧ t.Rooted D root := by
  induction h with
  | start => exact ⟨hwf, hs⟩
  | round _ hempty hround ih =>
    obtain ⟨popped, rest, hturn⟩ := round_turn hround
    exact ⟨hturn.wellFormed ih.1 hempty, hturn.rooted ih.2⟩

/-- **A call keeps to the search tree.** -/
theorem Rooted.minimize {fuel : Nat} {ending : Ending} (hs : s.Rooted D root) (hwf : WellFormed s)
    (h : s.minimize D clock fuel = (s', .ok ending)) : WellFormed s' ∧ s'.Rooted D root := by
  obtain ⟨n, entered, t, hheads, ⟨-, hempty, rfl⟩ | ⟨-, hempty, hround⟩⟩ := minimize_eq_ok .start h
  · obtain ⟨hwf, hrooted⟩ := hheads.rooted hwf hs
    refine ⟨hwf.conclude ((Queue.isEmpty_iff hwf.full).mp hempty), fun node hnode => ?_⟩
    rw [(conclude_cases t).1] at hnode
    exact hrooted node hnode
  · obtain ⟨hwf, hrooted⟩ := hheads.rooted hwf hs
    obtain ⟨popped, rest, hturn⟩ := round_turn hround
    exact ⟨hturn.wellFormed hwf hempty, hturn.rooted hrooted⟩

end Search

/-- **A search keeps to its tree** all through its life. -/
theorem Life.rooted (h : Life D root s lost) : s.WellFormed ∧ s.Rooted D root := by
  induction h with
  | start config => exact ⟨Search.wellFormed_start root config, Search.rooted_start config⟩
  | batchSize n _ ih => exact ⟨ih.1.tune ih.1.workers (Nat.le_max_left ..), ih.2⟩
  | workers n _ ih => exact ⟨ih.1.tune (Nat.le_max_left ..) ih.1.batchSize, ih.2⟩
  | maxMillis n _ ih => exact ⟨ih.1.tune ih.1.workers ih.1.batchSize, ih.2⟩
  | maxNodes n _ ih => exact ⟨ih.1.tune ih.1.workers ih.1.batchSize, ih.2⟩
  | minimize _ hmin ih => exact ih.2.minimize ih.1 hmin

namespace Domain

/-- At any time of the life of a search from `root`, a call of `minimize` returns. -/
def Returns (D : Domain σ δ) (root : σ) : Prop :=
  ∀ s lost, Life D root s lost → ∀ clock, ∃ rounds, ∀ fuel, rounds ≤ fuel →
    ∃ s' ending, s.minimize D clock fuel = (s', .ok ending)

/-- **In a calm domain with a finite tree all calls return.** -/
theorem Calm.returns (h : D.Calm root) (hfinite : D.Finite root) : D.Returns root :=
  fun _ _ hlife clock => h.minimize_total hfinite hlife.rooted.1 hlife.rooted.2 clock

/-! ## Guards -/

/-- The domain that faults at states that are not `inside`, and where it reaches one. -/
def guard (D : Domain σ δ) (inside : σ → Bool) : Domain σ δ where
  cost := D.cost
  expand s dual best := do
    let next ← D.expand s dual best
    if inside s && next.all inside then pure next else .error .outOfBounds
  announce := D.announce
  dual := D.dual
  solved := D.solved
  infer s := if inside s then D.infer s else .error .outOfBounds
  relax s := if inside s then D.relax s else .error .outOfBounds
  restrict s := if inside s then D.restrict s else .error .outOfBounds
  height := D.height

variable {inside : σ → Bool} {s : σ} {dual : Option δ} {best : Option Int} {next : List σ}

theorem guard_expand_eq_ok_iff : (D.guard inside).expand s dual best = .ok next ↔
    D.expand s dual best = .ok next ∧ inside s = true ∧ ∀ t ∈ next, inside t = true := by
  change (D.expand s dual best >>= fun next =>
    if inside s && next.all inside then pure next else .error .outOfBounds) = _ ↔ _
  rw [bind_eq_ok_iff, ← List.all_eq_true, ← Bool.and_eq_true]
  constructor
  · rintro ⟨next', hnext, h⟩
    split at h
    · rename_i hinside
      cases h
      exact ⟨hnext, hinside⟩
    · cases h
  · rintro ⟨hnext, hinside⟩
    exact ⟨next, hnext, if_pos hinside⟩

theorem guard_infer (h : inside s = true) : (D.guard inside).infer s = D.infer s := if_pos h

theorem guard_relax (h : inside s = true) : (D.guard inside).relax s = D.relax s := if_pos h

theorem guard_restrict (h : inside s = true) : (D.guard inside).restrict s = D.restrict s :=
  if_pos h

/-- No search from `root` faults, not even one that is guarded. -/
def Safe (D : Domain σ δ) (inside : σ → Bool) (root : σ) : Prop :=
  D.Returns root ∧ (D.guard inside).Returns root

end Domain

end Fathom
