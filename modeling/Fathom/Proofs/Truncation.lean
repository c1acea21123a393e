import Fathom.Proofs.Layers
import Fathom.Proofs.Sorting

/-!
# Truncation by cost

The merger `Merger.cheapest` sorts the states by cost and cuts the list at the width. `Truncates`
says what is kept without reference to sorting: so many states, by increasing cost, none of them
dearer than one that is dropped, and of the states that cost the same the first ones, in the order
given. There is one list of such states (`Truncates.eq_cheapest`).

A cut behind the first state leaves the head of the sorted list in place, which is the best state of
a layer (`Layer.best_eq_head?`). So a restriction may lose the way to a cheap solution, but never
the best of the states to be kept (`Layer.best_cheapest`).

Results:
* `cheapest_truncates`: what is kept of any list of states, and that cutting twice is cutting once.
-/

namespace Fathom

variable {σ : Type} {cost : σ → Int} {width width' : Nat} {states kept dropped sorted : List σ}

namespace Merger

/-- The states are divided at the width into those that are kept and those that are dropped. -/
structure Truncates (cost : σ → Int) (width : Nat) (states kept dropped : List σ) : Prop where
  length_eq : kept.length = min width states.length
  increasing : kept.Pairwise fun a b => cost a ≤ cost b
  perm : (kept ++ dropped).Perm states
  cost_le : ∀ a ∈ kept, ∀ b ∈ dropped, cost a ≤ cost b
  /-- The states of one cost are kept from the first on, in the order given. -/
  ties : ∀ c, (kept.filter fun a => decide (cost a = c)) ++
    (dropped.filter fun a => decide (cost a = c)) = states.filter fun a => decide (cost a = c)

theorem stablySorted_states (cost : σ → Int) (states : List σ) :
    StablySorted cost states (states.mergeSort fun a b => decide (cost a ≤ cost b)) :=
  stablySorted_mergeSort (fun _ _ => decide_eq_true_iff) states

theorem increasing_cheapest (cost : σ → Int) (states : List σ) (width : Nat) :
    (cheapest cost states width).Pairwise fun a b => cost a ≤ cost b :=
  (stablySorted_states cost states).increasing.sublist (List.take_sublist _ _)

/-- A list sorted stably may be cut anywhere. -/
theorem truncates_cheapest (cost : σ → Int) (states : List σ) (width : Nat) :
    Truncates cost width states (cheapest cost states width)
      ((states.mergeSort fun a b => decide (cost a ≤ cost b)).drop width) := by
  have hsorted := stablySorted_states cost states
  have hcross := hsorted.increasing
  rw [← List.take_append_drop width (states.mergeSort _), List.pairwise_append] at hcross
  refine ⟨length_cheapest cost, hcross.1, ?_, hcross.2.2, fun c => ?_⟩
  · rw [cheapest, List.take_append_drop]
    exact List.mergeSort_perm _ _
  · rw [cheapest, ← List.filter_append, List.take_append_drop, hsorted.ties]

/-- Once what is dropped is sorted too, all states are. -/
theorem Truncates.stablySorted (h : Truncates cost width states kept dropped) :
    StablySorted cost states
      (kept ++ dropped.mergeSort fun a b => decide (cost a ≤ cost b)) := by
  have hdropped := stablySorted_states cost dropped
  refine ⟨List.pairwise_append.mpr ⟨h.increasing, hdropped.increasing, fun a ha b hb => ?_⟩,
    fun c => ?_⟩
  · exact h.cost_le a ha b ((hdropped.mem_iff b).mp hb)
  · rw [List.filter_append, hdropped.ties, h.ties]

/-- **There is one way to truncate.** -/
theorem Truncates.eq_cheapest (h : Truncates cost width states kept dropped) :
    kept = cheapest cost states width := by
  have hsorted := (stablySorted_states cost states).unique h.stablySorted
  rw [cheapest, List.take_eq_take_min, List.length_mergeSort, hsorted,
    List.take_left' h.length_eq]

/-- **Cutting twice is cutting once**, at the smaller width. -/
theorem cheapest_cheapest (h : width' ≤ width) :
    cheapest cost (cheapest cost states width) width' = cheapest cost states width' := by
  have hkept : (cheapest cost states width).mergeSort (fun a b => decide (cost a ≤ cost b)) =
      cheapest cost states width :=
    (stablySorted_states cost _).eq_given (increasing_cheapest cost states width)
  rw [cheapest, hkept, cheapest, cheapest, List.take_take, Nat.min_eq_left h]

end Merger

/-! ## The best state -/

namespace Layer

variable {layer layer' : Layer σ} {state : σ}

/-- The state that is found stands before all others that cost as little. -/
theorem find?_foldl_cheaper (cost : σ → Int) (states : List σ) (first : σ) :
    (first :: states).find? (fun a => decide (cost a = cost (states.foldl (cheaper cost) first))) =
      some (states.foldl (cheaper cost) first) := by
  induction states generalizing first with
  | nil => simp
  | cons state more ih =>
    have ih := ih (cheaper cost first state)
    rw [List.foldl_cons]
    by_cases hless : cost state < cost first
    · -- the first state is dearer than the second, so the search passes over it
      rw [show cheaper cost first state = state from if_pos hless] at ih ⊢
      have hbest := cost_foldl_cheaper_le cost more state state List.mem_cons_self
      have hfirst : cost first ≠ cost (more.foldl (cheaper cost) state) := by omega
      rw [List.find?_cons_of_neg (by simpa using hfirst), ih]
    · rw [show cheaper cost first state = first from if_neg hless] at ih ⊢
      by_cases hfirst : cost first = cost (more.foldl (cheaper cost) first)
      · rw [List.find?_cons_of_pos (by simpa using hfirst)] at ih ⊢
        exact ih
      · -- neither the first state nor the second costs as little as the best
        have hbest := cost_foldl_cheaper_le cost more first first List.mem_cons_self
        have hstate : cost state ≠ cost (more.foldl (cheaper cost) first) := by omega
        rw [List.find?_cons_of_neg (by simpa using hfirst)] at ih ⊢
        rw [List.find?_cons_of_neg (by simpa using hstate), ih]

theorem find?_best (h : layer.best cost = some state) :
    layer.states.find? (fun a => decide (cost a = cost state)) = some state := by
  unfold best at h
  split at h
  · simp at h
  · next hstates =>
    rw [hstates, ← Option.some.inj h]
    exact find?_foldl_cheaper _ _ _

/-- **The best state heads the sorted list.** -/
theorem best_eq_head? (h : StablySorted cost layer.states sorted) :
    layer.best cost = sorted.head? := by
  cases hbest : layer.best cost with
  | none =>
    have hnil : sorted = [] := List.eq_nil_iff_forall_not_mem.mpr fun a ha => by
      rw [h.mem_iff, best_eq_none_iff.mp hbest] at ha
      exact List.not_mem_nil ha
    rw [hnil, List.head?_nil]
  | some state => exact (h.head?_eq_some (cost_best_le hbest) (find?_best hbest)).symm

/-- The least cost of a layer is that of its best state. -/
theorem min?_cost (layer : Layer σ) :
    (layer.states.map cost).min? = (layer.best cost).map cost := by
  cases hbest : layer.best cost with
  | none => rw [best_eq_none_iff.mp hbest, List.map_nil, List.min?_nil, Option.map_none]
  | some state =>
    rw [Option.map_some, List.min?_eq_some_iff, List.forall_mem_map]
    exact ⟨List.mem_map_of_mem (best_mem hbest), cost_best_le hbest⟩

/-- **A cut behind the first state keeps the best one.** -/
theorem best_cheapest (hwidth : width ≠ 0)
    (hstates : layer'.states = Merger.cheapest cost layer.states width) :
    layer'.best cost = layer.best cost := by
  have hkept : StablySorted cost layer'.states layer'.states :=
    ⟨hstates ▸ Merger.increasing_cheapest cost layer.states width, fun _ => rfl⟩
  rw [best_eq_head? hkept, hstates, best_eq_head? (Merger.stablySorted_states cost layer.states),
    Merger.cheapest, List.head?_take, if_neg hwidth]

end Layer

namespace Merger

/-- **Keeping the cheapest states is the stable truncation by cost.** Of any list and at any width
it keeps as many states as fit, by increasing cost; with those that are dropped they are the given
ones; none of them costs more than one that is dropped; and of the states of one cost the first are
kept, in the order given. Nothing else has these properties. The least cost is kept unless the width
is zero, and keeping fewer of those that are kept is keeping fewer at once. -/
theorem cheapest_truncates (cost : σ → Int) (states : List σ) (width : Nat) :
    (∀ kept, kept = cheapest cost states width ↔
      ∃ dropped, Truncates cost width states kept dropped) ∧
    (0 < width → ((cheapest cost states width).map cost).min? = (states.map cost).min?) ∧
    ∀ width' ≤ width,
      cheapest cost (cheapest cost states width) width' = cheapest cost states width' := by
  refine ⟨fun kept => ⟨?_, fun ⟨_, h⟩ => h.eq_cheapest⟩, fun hwidth => ?_,
    fun _ => cheapest_cheapest⟩
  · rintro rfl
    exact ⟨_, truncates_cheapest cost states width⟩
  · let all : Layer σ := ⟨0, states, true⟩
    let cut : Layer σ := ⟨0, cheapest cost states width, true⟩
    have hbest : cut.best cost = all.best cost :=
      Layer.best_cheapest (Nat.pos_iff_ne_zero.mp hwidth) rfl
    exact cut.min?_cost.trans ((congrArg (Option.map cost) hbest).trans all.min?_cost.symm)

/-- Of the two states of cost 3 the first is kept, and those of cost 1 stay in order. -/
theorem cheapest_truncates_ties :
    let states : List (Int × Nat) := [(3, 0), (1, 1), (3, 2), (1, 3), (2, 4)]
    let kept : List (Int × Nat) := [(1, 1), (1, 3), (2, 4), (3, 0)]
    (∃ dropped, Truncates Prod.fst 4 states kept dropped) ∧
    (kept.map Prod.fst).min? = (states.map Prod.fst).min? ∧
    cheapest Prod.fst kept 2 = cheapest Prod.fst states 2 := by
  intro states kept
  obtain ⟨htruncates, hleast, htwice⟩ := cheapest_truncates Prod.fst states 4
  have hkept : kept = cheapest Prod.fst states 4 := by
    simp [kept, states, cheapest, List.mergeSort, List.MergeSort.Internal.splitInTwo]
  have hleast := hleast (by decide)
  have htwice := htwice 2 (by decide)
  rw [← hkept] at hleast htwice
  exact ⟨(htruncates kept).mp hkept, hleast, htwice⟩

end Merger

end Fathom
