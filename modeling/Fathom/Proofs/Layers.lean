import Fathom.Diagram
import Fathom.Proofs.Answers
import Fathom.Proofs.Merging

/-!
# What a reduction keeps

A merger is *selective* when it returns states of its input only; the restriction
`Merger.cheapest` is. A diagram loses states only where the width is exceeded: as long as its
layers are flagged exact, a layer reduced by `cheapest`, or not at all, holds every successor of the
layer before it (`Diagram.Restricts.advance`, `Diagram.Unbounded.advance`).

Results:
* `mem_of_shrink`: selective mergers invent no state;
* `shrink_cheapest`: keeping the cheapest states always fits, in one pass;
* `mem_of_branchAll`: the expansion of a list of states collects what each of them yields;
* `Diagram.advance_eq_ok_iff`: what the next layer of a diagram is made of.
-/

namespace Fathom

variable {σ δ : Type}

/-! ## Mergers -/

namespace Merger

/-- The merger returns states of its input only. -/
def Selective (merge : Merger σ) : Prop := ∀ states, ∀ width, merge states width ⊆ states

theorem selective_cheapest (cost : σ → Int) : Selective (cheapest cost) := fun _ _ _ h =>
  List.mem_mergeSort.mp (List.mem_of_mem_take h)

variable {mergers : List (Merger σ)} {width depth : Nat} {states kept : List σ}

theorem cycle_subset (hsel : ∀ merge ∈ mergers, Selective merge) :
    cycle width mergers states ⊆ states := by
  induction mergers generalizing states with
  | nil => exact fun _ h => h
  | cons merge more ih =>
    have hmerge : merge states width ⊆ states := hsel merge List.mem_cons_self states width
    simp only [cycle]
    split
    · exact hmerge
    · exact fun _ h => hmerge (ih (fun m hm => hsel m (List.mem_cons_of_mem _ hm)) h)

theorem reduce_subset (hsel : ∀ merge ∈ mergers, Selective merge)
    (h : reduce mergers width states = .ok kept) : kept ⊆ states := by
  induction hn : states.length using Nat.strongRecOn generalizing states with
  | ind n ih =>
    rw [reduce] at h
    split at h
    · rw [← Except.ok.inj h]
      exact cycle_subset hsel
    · split at h
      · rename_i hlt
        exact fun _ ht => cycle_subset hsel (ih _ (hn ▸ hlt) h rfl ht)
      · simp at h

/-- **Selective mergers invent no state.** -/
theorem mem_of_shrink (hsel : ∀ merge ∈ mergers, Selective merge)
    (h : shrink mergers width depth states = .ok kept) : kept ⊆ states := by
  unfold shrink at h
  split at h
  · rw [← Except.ok.inj h]
    exact fun _ ht => ht
  · split at h
    · simp at h
    · exact reduce_subset hsel h

theorem length_cheapest (cost : σ → Int) :
    (cheapest cost states width).length = min width states.length := by
  simp [cheapest]

/-- **The cheapest states always fit**, after one pass of the merger. -/
theorem shrink_cheapest (cost : σ → Int) (width depth : Nat) (states : List σ) :
    shrink [cheapest cost] width depth states =
      .ok (if width = 0 ∨ states.length ≤ width then states else cheapest cost states width) := by
  have hlen : (cheapest cost states width).length ≤ width := by
    rw [length_cheapest]
    exact Nat.min_le_left ..
  have hcycle : cycle width [cheapest cost] states = cheapest cost states width := by
    simp [cycle]
  unfold shrink
  split
  · rfl
  · rw [List.isEmpty_cons, if_neg Bool.false_ne_true, reduce, hcycle, if_pos hlen]

/-- If keeping the cheapest states loses none, it does nothing. -/
theorem eq_of_shrink_cheapest {cost : σ → Int}
    (h : shrink [cheapest cost] width depth states = .ok kept)
    (hlen : kept.length = states.length) : kept = states := by
  rw [shrink_cheapest, Except.ok.injEq] at h
  split at h
  · exact h.symm
  · rename_i hw
    rw [← h, length_cheapest] at hlen
    omega

end Merger

/-! ## Expanding a list of states -/

namespace Space

variable {S : Space σ δ} {states all : List σ} {dual : Option δ} {best : Option Int}

/-- Under these hints, `t` is a successor of one of the states. -/
def Yields (S : Space σ δ) (states : List σ) (dual : Option δ) (best : Option Int) (t : σ) :
    Prop :=
  ∃ s ∈ states, ∃ next, S.expand s dual best = .ok next ∧ t ∈ next

theorem result_branchAll : (S.branchAll states dual best).result =
    List.flatten <$> states.mapM fun s => S.expand s dual best := by
  have hmap : (states.map fun s => S.branch s dual best).mapM Traced.result =
      states.mapM fun s => S.expand s dual best := by
    rw [List.mapM_map]
    exact congrArg (fun f => states.mapM f) (funext fun s => result_branch S s dual best)
  simp only [branchAll, Traced.result_bind, Traced.result_sequence, Traced.result_pure, hmap]
  rfl

theorem branchAll_eq_ok_iff : (S.branchAll states dual best).result = .ok all ↔
    ∃ nexts, List.Forall₂ (fun s next => S.expand s dual best = .ok next) states nexts ∧
      nexts.flatten = all := by
  rw [result_branchAll]
  simp only [map_eq_ok_iff, mapM_eq_ok_iff]

/-- A layer faults only if the expansion of one of its states does. -/
theorem branchAll_eq_error {f : Fault} (h : (S.branchAll states dual best).result = .error f) :
    ∃ s ∈ states, S.expand s dual best = .error f := by
  rw [result_branchAll] at h
  cases hm : states.mapM fun s => S.expand s dual best with
  | error f' =>
    rw [hm] at h
    cases h
    exact mapM_eq_error hm
  | ok nexts =>
    rw [hm] at h
    cases h

theorem mem_of_branchAll (h : (S.branchAll states dual best).result = .ok all) (t : σ) :
    t ∈ all ↔ S.Yields states dual best t := by
  obtain ⟨nexts, hall, rfl⟩ := branchAll_eq_ok_iff.mp h
  rw [List.mem_flatten]
  constructor
  · rintro ⟨next, hnext, ht⟩
    obtain ⟨s, hs, he⟩ := forall₂_mem_right hall hnext
    exact ⟨s, hs, next, he, ht⟩
  · rintro ⟨s, hs, next, he, ht⟩
    obtain ⟨next', hnext, he'⟩ := forall₂_mem_left hall hs
    rw [he, Except.ok.injEq] at he'
    exact ⟨next', hnext, he' ▸ ht⟩

theorem branchAll_total (h : ∀ s ∈ states, ∃ next, S.expand s dual best = .ok next) :
    ∃ all, (S.branchAll states dual best).result = .ok all := by
  obtain ⟨nexts, hm⟩ := mapM_total h
  exact ⟨_, branchAll_eq_ok_iff.mpr ⟨nexts, mapM_eq_ok_iff.mp hm, rfl⟩⟩

end Space

/-! ## Advancing a diagram -/

namespace Diagram

variable {S : Space σ δ} {d next : Diagram σ} {dual : Option δ} {best : Option Int}

/-- What the next layer is made of. -/
theorem advance_eq_ok_iff : (d.advance S dual best).result = .ok next ↔
    ∃ reached kept, (S.branchAll d.layer.states dual best).result = .ok reached ∧
      Merger.shrink d.mergers d.width (d.layer.depth + 1) reached = .ok kept ∧
      next = { d with layer := ⟨d.layer.depth + 1, kept,
        d.layer.isExact && kept.length == reached.length⟩ } := by
  simp only [advance, Layer.expand, Traced.result_bind, Traced.result_silent, Traced.result_pure,
    bind_eq_ok_iff, Except.ok.injEq]
  constructor
  · rintro ⟨layer, ⟨reached, hr, kept, hk, rfl⟩, rfl⟩
    exact ⟨reached, kept, hr, hk, rfl⟩
  · rintro ⟨reached, kept, hr, hk, rfl⟩
    exact ⟨_, ⟨reached, hr, kept, hk, rfl⟩, rfl⟩

/-- The diagram keeps the cheapest states only. -/
def Restricts (cost : σ → Int) (d : Diagram σ) : Prop := d.mergers = [Merger.cheapest cost]

/-- The diagram keeps all states. -/
def Unbounded (d : Diagram σ) : Prop := d.width = 0

/-- **A restriction loses states only where it says so**: its states are successors, and all of
them as long as the layer is exact. -/
theorem Restricts.advance {cost : σ → Int} (hd : d.Restricts cost)
    (h : (d.advance S dual best).result = .ok next) :
    next.Restricts cost ∧ (∀ t ∈ next.layer.states, S.Yields d.layer.states dual best t) ∧
      (next.layer.isExact = true → d.layer.isExact = true ∧
        ∀ t, S.Yields d.layer.states dual best t → t ∈ next.layer.states) := by
  obtain ⟨reached, kept, hr, hk, rfl⟩ := advance_eq_ok_iff.mp h
  rw [show d.mergers = [Merger.cheapest cost] from hd] at hk
  have hsel : ∀ merge ∈ [Merger.cheapest cost], Merger.Selective merge := by
    intro merge hm
    rw [List.mem_singleton.mp hm]
    exact Merger.selective_cheapest cost
  refine ⟨hd, fun t ht => (Space.mem_of_branchAll hr t).mp (Merger.mem_of_shrink hsel hk ht),
    fun hexact => ?_⟩
  rw [Bool.and_eq_true, beq_iff_eq] at hexact
  refine ⟨hexact.1, fun t ht => ?_⟩
  rw [Merger.eq_of_shrink_cheapest hk hexact.2]
  exact (Space.mem_of_branchAll hr t).mpr ht

theorem Restricts.advance_total {cost : σ → Int} (hd : d.Restricts cost)
    (h : ∀ s ∈ d.layer.states, ∃ next, S.expand s dual best = .ok next) :
    ∃ next, (d.advance S dual best).result = .ok next := by
  obtain ⟨reached, hr⟩ := Space.branchAll_total h
  have hk := Merger.shrink_cheapest cost d.width (d.layer.depth + 1) reached
  rw [← show d.mergers = [Merger.cheapest cost] from hd] at hk
  exact ⟨_, advance_eq_ok_iff.mpr ⟨reached, _, hr, hk, rfl⟩⟩

/-- **An unbounded diagram loses nothing.** -/
theorem Unbounded.advance (hd : d.Unbounded) (h : (d.advance S dual best).result = .ok next) :
    next.Unbounded ∧ ∀ t, t ∈ next.layer.states ↔ S.Yields d.layer.states dual best t := by
  obtain ⟨reached, kept, hr, hk, rfl⟩ := advance_eq_ok_iff.mp h
  rw [Merger.shrink_of_fits (.inl hd), Except.ok.injEq] at hk
  subst hk
  exact ⟨hd, fun t => Space.mem_of_branchAll hr t⟩

theorem Unbounded.advance_total (hd : d.Unbounded)
    (h : ∀ s ∈ d.layer.states, ∃ next, S.expand s dual best = .ok next) :
    ∃ next, (d.advance S dual best).result = .ok next := by
  obtain ⟨reached, hr⟩ := Space.branchAll_total h
  have hk : Merger.shrink d.mergers d.width (d.layer.depth + 1) reached = .ok reached :=
    Merger.shrink_of_fits (.inl hd)
  exact ⟨_, advance_eq_ok_iff.mpr ⟨reached, reached, hr, hk, rfl⟩⟩

end Diagram

end Fathom
