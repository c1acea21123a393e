import Fathom.Proofs.Lockstep
import Mathlib.Data.List.Chain

/-!
# Paths to a solution

A path goes down the tree of expansions without hints, from a state to a solution with some property
(`Domain.Path`). There is exactly one if each state that still *keeps* what is looked for has just
one successor that does, and if a solution keeps it just when it has the property (`Guides`).

Results:
* `Guides.path_unique`: there is one path at most;
* `Guides.exists_path`: there is one, as long as no state that keeps what is looked for is a dead
  end.
-/

namespace Fathom

variable {σ δ : Type} {D : Domain σ δ} {goal known keeps : σ → Prop} {s t u : σ} {states : List σ}

/-- The states lead from `s` to a solution with the property `goal`, one expansion at a time. -/
def Domain.Path (D : Domain σ δ) (goal : σ → Prop) (s : σ) (states : List σ) : Prop :=
  (s :: states).IsChain D.Precedes ∧
    ∃ x, (s :: states).getLast? = some x ∧ D.solved x = true ∧ goal x

namespace Domain

theorem path_nil_iff : D.Path goal s [] ↔ D.solved s = true ∧ goal s := by
  simp [Path]

theorem path_cons_iff : D.Path goal s (u :: states) ↔ D.Precedes s u ∧ D.Path goal u states := by
  rw [Path, List.isChain_cons_cons, List.getLast?_cons_cons, and_assoc]
  rfl

end Domain

/-- The states that keep what is looked for are found by going down, among the states that are
`known`. -/
structure Guides (D : Domain σ δ) (goal known keeps : σ → Prop) : Prop where
  leads : ∀ {s t}, known s → D.Precedes s t → known t
  /-- No state comes after a solution. -/
  ends : ∀ {s t}, known s → D.solved s = true → ¬D.Precedes s t
  goal_iff : ∀ {s}, known s → D.solved s = true → (goal s ↔ keeps s)
  /-- What a state keeps was kept before. -/
  keeps_of_precedes : ∀ {s t}, known s → D.Precedes s t → keeps t → keeps s
  unique : ∀ {s t u}, known s → D.Precedes s t → D.Precedes s u → keeps t → keeps u → t = u

namespace Guides

variable (h : Guides D goal known keeps)

include h

/-- **Every state on a path keeps what is looked for.** -/
theorem keeps_of_path (hs : known s) (hpath : D.Path goal s states) : keeps s := by
  induction states generalizing s with
  | nil =>
    obtain ⟨hsolved, hgoal⟩ := Domain.path_nil_iff.mp hpath
    exact (h.goal_iff hs hsolved).mp hgoal
  | cons u states ih =>
    obtain ⟨hsu, hrest⟩ := Domain.path_cons_iff.mp hpath
    exact h.keeps_of_precedes hs hsu (ih (h.leads hs hsu) hrest)

/-- **There is one path at most.** -/
theorem path_unique (hs : known s) {states' : List σ} (hpath : D.Path goal s states)
    (hpath' : D.Path goal s states') : states = states' := by
  induction states generalizing s states' with
  | nil =>
    have hsolved := (Domain.path_nil_iff.mp hpath).1
    cases states' with
    | nil => rfl
    | cons u states' => exact absurd (Domain.path_cons_iff.mp hpath').1 (h.ends hs hsolved)
  | cons u states ih =>
    obtain ⟨hsu, hrest⟩ := Domain.path_cons_iff.mp hpath
    cases states' with
    | nil => exact absurd hsu (h.ends hs (Domain.path_nil_iff.mp hpath').1)
    | cons u' states' =>
      obtain ⟨hsu', hrest'⟩ := Domain.path_cons_iff.mp hpath'
      have hu := h.leads hs hsu
      obtain rfl := h.unique hs hsu hsu' (h.keeps_of_path hu hrest)
        (h.keeps_of_path (h.leads hs hsu') hrest')
      rw [ih hu hrest hrest']

/-- **There is a path** if no state that keeps what is looked for is a dead end, and `rank` counts
down. -/
theorem exists_path (rank : σ → Nat) (hrank : ∀ {s t}, known s → D.Precedes s t → rank t < rank s)
    (hs : known s) (hnext : ∀ n t, Steps D.Precedes n s t → known t → keeps t →
      D.solved t = false → ∃ u, D.Precedes t u ∧ keeps u) (hkeeps : keeps s) :
    ∃ states, D.Path goal s states := by
  induction hn : rank s using Nat.strongRecOn generalizing s with
  | ind n ih =>
    cases hsolved : D.solved s with
    | true => exact ⟨[], Domain.path_nil_iff.mpr ⟨hsolved, (h.goal_iff hs hsolved).mpr hkeeps⟩⟩
    | false =>
      obtain ⟨u, hsu, hu⟩ := hnext 0 s (.refl s) hs hkeeps hsolved
      obtain ⟨states, hrest⟩ := ih _ (hn ▸ hrank hs hsu) (h.leads hs hsu)
        (fun m t hm => hnext (m + 1) t (.head hsu hm)) hu rfl
      exact ⟨u :: states, Domain.path_cons_iff.mpr ⟨hsu, hrest⟩⟩

end Guides

end Fathom
