import Fathom.Proofs.Routing.Exploration
import Fathom.Proofs.Sorting

/-!
# The order of decisions

A rule orders the nodes by a key made of the cheapest arcs to their candidates: the cost of the
cheapest, or by how much the second cheapest is dearer. Both are found by reading the costs once and
keeping the two least. `nthLeast` says what they are without reference to the reading: the costs are
sorted, repetitions included, and the greatest cost stands in for those that are missing. The two
agree as long as no cost exceeds the greatest, as in accepted instances (`Instance.inRange_cost`).

Results:
* `twoLeast_eq`: reading the costs in any order finds the two least;
* `decisionOrder_sorted`: each rule lists every node but the end depot once, sorted by its key, and
  nodes with the same key in the order of the instance.
-/

namespace Fathom.Routing.Chains

variable {P : Instance} {s : Chains} {costs costs' : List Int} {a : Nat} {c : Int}
  {relaxation : Option Assignment}

/-! ## The two least costs -/

/-- The `k`-th least of the costs, each counted as often as it occurs; the greatest cost if there
are fewer. -/
def nthLeast (costs : List Int) (k : Nat) : Int :=
  (costs.insertionSort (· ≤ ·))[k]?.getD Cost.greatest

/-- The order of the costs does not matter. -/
theorem nthLeast_perm {k : Nat} (h : costs.Perm costs') : nthLeast costs k = nthLeast costs' k := by
  have hsorted : costs.insertionSort (· ≤ ·) = costs'.insertionSort (· ≤ ·) := by
    refine List.Perm.eq_of_sortedLE List.sortedLE_insertionSort List.sortedLE_insertionSort ?_
    exact ((List.perm_insertionSort _ _).trans h).trans (List.perm_insertionSort _ _).symm
  rw [nthLeast, nthLeast, hsorted]

theorem first_orderedInsert {sorted : List Int} (hc : c ≤ Cost.greatest) :
    (sorted.orderedInsert (· ≤ ·) c)[0]?.getD Cost.greatest =
      min c (sorted[0]?.getD Cost.greatest) := by
  cases sorted with
  | nil => simp [hc]
  | cons x rest =>
    rw [List.orderedInsert_cons]
    split_ifs with hx
    · simp [hx]
    · simp [Int.le_of_not_le hx]

theorem second_orderedInsert {sorted : List Int} (hsorted : sorted.Pairwise (· ≤ ·))
    (hgreatest : ∀ x ∈ sorted, x ≤ Cost.greatest) (hc : c ≤ Cost.greatest) :
    (sorted.orderedInsert (· ≤ ·) c)[1]?.getD Cost.greatest =
      min (max c (sorted[0]?.getD Cost.greatest)) (sorted[1]?.getD Cost.greatest) := by
  cases sorted with
  | nil => simp
  | cons x rest =>
    have hx : x ≤ rest[0]?.getD Cost.greatest := by
      cases rest with
      | nil => exact hgreatest x List.mem_cons_self
      | cons y rest => exact (List.pairwise_cons.mp hsorted).1 y List.mem_cons_self
    rw [List.orderedInsert_cons]
    split_ifs with hcx
    · simp only [List.getElem?_cons_succ, List.getElem?_cons_zero, Option.getD_some]
      omega
    · simp only [List.getElem?_cons_succ, List.getElem?_cons_zero, Option.getD_some,
        first_orderedInsert hc]
      omega

/-- What one cost more does to the least … -/
theorem nthLeast_cons_zero (hc : c ≤ Cost.greatest) :
    nthLeast (c :: costs) 0 = min c (nthLeast costs 0) :=
  first_orderedInsert hc

/-- … and to the second least. -/
theorem nthLeast_cons_one (hcosts : ∀ x ∈ costs, x ≤ Cost.greatest) (hc : c ≤ Cost.greatest) :
    nthLeast (c :: costs) 1 = min (max c (nthLeast costs 0)) (nthLeast costs 1) :=
  second_orderedInsert List.sortedLE_insertionSort.pairwise
    (fun x hx => hcosts x ((List.mem_insertionSort _).mp hx)) hc

theorem nthLeast_zero_le_one (hcosts : ∀ x ∈ costs, x ≤ Cost.greatest) :
    nthLeast costs 0 ≤ nthLeast costs 1 := by
  induction costs with
  | nil => exact Int.le_refl _
  | cons c costs ih =>
    rw [List.forall_mem_cons] at hcosts
    rw [nthLeast_cons_zero hcosts.1, nthLeast_cons_one hcosts.2 hcosts.1]
    have hle := ih hcosts.2
    omega

/-- Reading one cost more. -/
theorem twoLeast_concat (costs : List Int) (c : Int) : twoLeast (costs ++ [c]) =
    if c < (twoLeast costs).1 then (c, (twoLeast costs).1)
    else if c < (twoLeast costs).2 then ((twoLeast costs).1, c)
    else ((twoLeast costs).1, (twoLeast costs).2) := by
  rw [twoLeast, List.foldl_append]
  rfl

/-- **Reading finds the two least costs**, in whatever order they come. -/
theorem twoLeast_eq (hcosts : ∀ c ∈ costs, c ≤ Cost.greatest) :
    twoLeast costs = (nthLeast costs 0, nthLeast costs 1) := by
  induction costs using List.reverseRecOn with
  | nil => rfl
  | append_singleton costs c ih =>
    have hperm : (costs ++ [c]).Perm (c :: costs) := List.perm_append_singleton c costs
    have hmore : ∀ x ∈ c :: costs, x ≤ Cost.greatest := fun x hx => hcosts x (hperm.mem_iff.mpr hx)
    rw [List.forall_mem_cons] at hmore
    have hle := nthLeast_zero_le_one hmore.2
    rw [twoLeast_concat, ih hmore.2, nthLeast_perm hperm, nthLeast_perm hperm,
      nthLeast_cons_zero hmore.1, nthLeast_cons_one hmore.2 hmore.1]
    dsimp only
    split_ifs with hfirst hsecond
    all_goals
      rw [Prod.mk.injEq]
      omega

/-! ## Keys -/

/-- The cost of the `k`-th cheapest arc from a node to one of its candidates. -/
def nthCheapest (P : Instance) (s : Chains) (k origin : Nat) : Int :=
  nthLeast ((s.candidates origin).map (P.cost origin)) k

theorem twoCheapest_eq (hcosts : ∀ a b, P.cost a b ≤ Cost.greatest) :
    s.twoCheapest P a = (s.nthCheapest P 0 a, s.nthCheapest P 1 a) := by
  refine twoLeast_eq fun c hc => ?_
  obtain ⟨b, -, rfl⟩ := List.mem_map.mp hc
  exact hcosts a b

/-- The decision order is made without the relaxation of the root, whose candidates are the same. -/
theorem twoCheapest_bare (hcosts : ∀ a b, P.cost a b ≤ Cost.greatest) :
    (bare P none).twoCheapest P a =
      ((bare P relaxation).nthCheapest P 0 a, (bare P relaxation).nthCheapest P 1 a) :=
  twoCheapest_eq hcosts

/-! ## Decision orders -/

theorem stablySorted_greedy (P : Instance) :
    StablySorted ((bare P none).cheapestArc P) (P.nodes.filter (· != P.finish))
      (decisionOrder P .greedy) :=
  stablySorted_mergeSort (fun _ _ => decide_eq_true_iff) _

theorem stablySorted_regret (P : Instance) :
    StablySorted (fun a => OrderDual.toDual ((bare P none).regret P a))
      (P.nodes.filter (· != P.finish)) (decisionOrder P .regret) := by
  refine stablySorted_mergeSort (fun a b => ?_) _
  rw [decide_eq_true_iff, OrderDual.toDual_le_toDual]

theorem nodes_increasing (P : Instance) :
    (P.nodes.filter (· != P.finish)).Pairwise (· < ·) :=
  List.pairwise_lt_range.filter _

/-- **The order of decisions.** Whatever the rule, it lists every node but the end depot once. By
input it is the order of the instance. By greed, the cost of the cheapest arc to a candidate of the
root never decreases along it. By regret, what the second cheapest costs more, or the end of the
range if that lies outside, never increases along it. Nodes with the same key are in the order of
the instance. -/
theorem decisionOrder_sorted {d : Draft} (htyped : d.Typed) (hP : Instance.ofDraft d = .ok P)
    {infer : Bool} {r : Chains} (hr : root P infer = .ok r) :
    let least := r.nthCheapest P 0
    let gap := fun a => Cost.saturatingSub (r.nthCheapest P 1 a) (r.nthCheapest P 0 a)
    (∀ rule, (decisionOrder P rule).Nodup ∧
      ∀ a, a ∈ decisionOrder P rule ↔ a < P.size ∧ a ≠ P.finish) ∧
    (decisionOrder P .input).Pairwise (· < ·) ∧
    (decisionOrder P .greedy).Pairwise
      (fun a b => least a ≤ least b ∧ (least a = least b → a < b)) ∧
    (decisionOrder P .regret).Pairwise (fun a b => gap b ≤ gap a ∧ (gap a = gap b → a < b)) := by
  intro least gap
  obtain ⟨relaxation, -, rfl⟩ := root_eq_ok_iff.mp hr
  have hcosts : ∀ a b, P.cost a b ≤ Cost.greatest := fun a b =>
    (Instance.inRange_cost htyped hP a b).2
  have hleast : (bare P none).cheapestArc P = least := by
    funext a
    rw [cheapestArc, twoCheapest_bare hcosts]
  have hgap : (bare P none).regret P = gap := by
    funext a
    rw [regret, twoCheapest_bare hcosts]
  have hgreedy := stablySorted_greedy P
  have hregret := stablySorted_regret P
  rw [hleast] at hgreedy
  rw [hgap] at hregret
  refine ⟨fun rule => ?_, nodes_increasing P, ?_, ?_⟩
  · have hd := decides_decisionOrder P rule
    exact ⟨hd.nodup, fun a => hd.mem_iff⟩
  · exact hgreedy.increasing.and (hgreedy.pairwise_ties (nodes_increasing P))
  · refine (hregret.increasing.and (hregret.pairwise_ties (nodes_increasing P))).imp fun h => ?_
    exact ⟨h.1, fun he => h.2 (congrArg OrderDual.toDual he)⟩

/-- From the start, the cheapest arcs lead to the two pickups, and cost 0 and 1. -/
theorem dearReturn_sorted : Instance.dearReturnDraft.Typed ∧
    Instance.ofDraft Instance.dearReturnDraft = .ok Instance.dearReturn ∧
    root Instance.dearReturn false = .ok (bare Instance.dearReturn none) ∧
    let least := (bare Instance.dearReturn none).nthCheapest Instance.dearReturn 0
    let second := (bare Instance.dearReturn none).nthCheapest Instance.dearReturn 1
    let gap := fun a => Cost.saturatingSub (second a) (least a)
    (least 0, second 0) = (0, 1) ∧
    (decisionOrder Instance.dearReturn .greedy).Pairwise
      (fun a b => least a ≤ least b ∧ (least a = least b → a < b)) ∧
    (decisionOrder Instance.dearReturn .regret).Pairwise
      (fun a b => gap b ≤ gap a ∧ (gap a = gap b → a < b)) := by
  have hroot : root Instance.dearReturn false = .ok (bare Instance.dearReturn none) := rfl
  obtain ⟨-, -, hgreedy, hregret⟩ :=
    decisionOrder_sorted Instance.typed_dearReturn Instance.ofDraft_dearReturn hroot
  exact ⟨Instance.typed_dearReturn, Instance.ofDraft_dearReturn, hroot, by decide, hgreedy, hregret⟩

end Fathom.Routing.Chains
