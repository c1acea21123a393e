import Fathom.Proofs.Routing.Visiting
import Fathom.Proofs.Sorting

/-!
# What folding keeps

`Visits.fold` is the merger of the relaxation: it keeps the cheapest states and folds all others
into the cheapest of them, which may then visit what any of them may. No state is lost as long as
nothing is folded, and the cheapest state is kept even then. But a folded state keeps the last node
and the cost of one state only, so that what is reached from it later says nothing of the others.

What does survive every fold is that the walk goes on. `Lasting k` is a supply of visits: a list of
feasible nodes without repetition lasts for `k` more visits if its pickups, counted twice, its
deliveries and the end depot are as many. Some visit always uses up at most one of them
(`Lasting.exists_visit`), and more feasible nodes last as long (`Lasting.of_subset`).

Results:
* `shrink_fold`: one fold makes a layer fit;
* `exists_le_of_mem`: a fold keeps the cheapest state;
* `Coherent.lasting`: the feasible nodes of a partial route last to its end.
-/

namespace Fathom.Routing.Visits

variable {P : Instance} {s t : Visits} {a v k width depth : Nat} {R l : List Nat}
  {states : List Visits}

/-! ## Sorting and folding -/

/-- Erasing the repetitions of a sorted list leaves each member once. -/
theorem eraseReps_sorted {l : List Nat} (h : l.Pairwise (· ≤ ·)) :
    l.eraseReps.Nodup ∧ ∀ a, a ∈ l.eraseReps ↔ a ∈ l := by
  have hloop : ∀ (l acc : List Nat) (a : Nat), (a :: l).Pairwise (· ≤ ·) →
      ∃ r, List.eraseRepsBy.loop (· == ·) a l acc = acc.reverse ++ r ∧ r.Pairwise (· < ·) ∧
        ∀ b, b ∈ r ↔ b ∈ a :: l := by
    intro l
    induction l with
    | nil => exact fun acc a _ => ⟨[a], by simp [List.eraseRepsBy.loop], by simp, by simp⟩
    | cons b l ih =>
      intro acc a h
      obtain ⟨ha, h⟩ := List.pairwise_cons.mp h
      rw [List.eraseRepsBy.loop]
      split
      · rename_i hab
        obtain rfl := beq_iff_eq.mp hab
        obtain ⟨r, hr, hsorted, hmem⟩ := ih acc a h
        exact ⟨r, hr, hsorted, fun c => by simp [hmem]⟩
      · rename_i hab
        obtain ⟨r, hr, hsorted, hmem⟩ := ih (a :: acc) b h
        have hne : a ≠ b := fun he => by simp [he] at hab
        refine ⟨a :: r, by simp [hr], List.pairwise_cons.mpr ⟨fun c hc => ?_, hsorted⟩,
          fun c => by simp [hmem]⟩
        have hlt : a < b := Nat.lt_of_le_of_ne (ha b List.mem_cons_self) hne
        obtain rfl | hc := List.mem_cons.mp ((hmem c).mp hc)
        · exact hlt
        · exact Nat.lt_of_lt_of_le hlt ((List.pairwise_cons.mp h).1 c hc)
  cases l with
  | nil => exact ⟨List.nodup_nil, fun a => Iff.rfl⟩
  | cons a l =>
    obtain ⟨r, hr, hsorted, hmem⟩ := hloop l [] a h
    have he : (a :: l).eraseReps = r := hr
    rw [he]
    exact ⟨hsorted.imp Nat.ne_of_lt, hmem⟩

/-- What one of the states may visit, each node once. -/
theorem mem_mayVisit (states : List Visits) : (mayVisit states).Nodup ∧
    ∀ a, a ∈ mayVisit states ↔ ∃ s ∈ states, a ∈ s.feasible := by
  have hsorted : ((states.flatMap feasible).mergeSort fun a b => decide (a ≤ b)).Pairwise
      (· ≤ ·) :=
    (stablySorted_mergeSort (fun _ _ => decide_eq_true_iff) _).increasing
  obtain ⟨hnodup, hmem⟩ := eraseReps_sorted hsorted
  exact ⟨hnodup, fun a => (hmem a).trans (List.mem_mergeSort.trans List.mem_flatMap)⟩

/-- A layer that fits is not folded. -/
theorem fold_of_fits (h : width = 0 ∨ states.length ≤ width) : fold states width = states :=
  if_pos h

/-- **What a fold makes of a layer that does not fit**: the states come in the order of their costs,
and one of them stands for itself and all that come later. -/
theorem fold_eq (h : ¬(width = 0 ∨ states.length ≤ width)) :
    ∃ kept first folded, (kept ++ first :: folded).Perm states ∧
      (kept ++ first :: folded).Pairwise (fun a b => a.cost ≤ b.cost) ∧ kept.length + 1 = width ∧
      fold states width = kept ++ [{ first with feasible := mayVisit (first :: folded) }] := by
  let sorted := states.mergeSort fun a b => decide (a.cost ≤ b.cost)
  have hlen : sorted.length = states.length := List.length_mergeSort _
  obtain ⟨first, folded, hdrop⟩ : ∃ first folded, sorted.drop (width - 1) = first :: folded := by
    refine List.exists_cons_of_ne_nil fun hnil => ?_
    rw [List.drop_eq_nil_iff, hlen] at hnil
    omega
  have hsplit : sorted.take (width - 1) ++ first :: folded = sorted := by
    rw [← hdrop, List.take_append_drop]
  refine ⟨sorted.take (width - 1), first, folded, ?_, ?_, ?_, ?_⟩
  · rw [hsplit]
    exact List.mergeSort_perm _ _
  · rw [hsplit]
    exact (stablySorted_mergeSort (fun _ _ => decide_eq_true_iff) states).increasing
  · rw [List.length_take, hlen]
    omega
  · unfold fold
    rw [if_neg h]
    change sorted.take (width - 1) ++ ((sorted.drop (width - 1)).head?.map fun first =>
      { first with feasible := mayVisit (sorted.drop (width - 1)) }).toList = _
    rw [hdrop]
    rfl

/-- **One fold makes a layer fit.** -/
theorem shrink_fold (states : List Visits) (width depth : Nat) :
    Merger.shrink [fold] width depth states = .ok (fold states width) := by
  unfold Merger.shrink
  split
  · rename_i hfits
    rw [fold_of_fits hfits]
  · rename_i hfits
    obtain ⟨kept, first, folded, -, -, hlen, hfold⟩ := fold_eq hfits
    have hle : (fold states width).length ≤ width := by
      rw [hfold, List.length_append, List.length_singleton, hlen]
    have hcycle : Merger.cycle width [fold] states = fold states width := by simp [Merger.cycle]
    rw [List.isEmpty_cons, if_neg Bool.false_ne_true, Merger.reduce, hcycle, if_pos hle]

/-- **A folded state is one of the states**, but for the nodes that it may visit next, and each of
these may be visited next from one of them. -/
theorem mem_fold {x : Visits} (hx : x ∈ fold states width) :
    (∃ y ∈ states, x = { y with feasible := x.feasible }) ∧
      ∀ v ∈ x.feasible, ∃ y ∈ states, v ∈ y.feasible := by
  by_cases hfits : width = 0 ∨ states.length ≤ width
  · rw [fold_of_fits hfits] at hx
    exact ⟨⟨x, hx, rfl⟩, fun v hv => ⟨x, hx, hv⟩⟩
  · obtain ⟨kept, first, folded, hperm, -, -, hfold⟩ := fold_eq hfits
    have hmem : ∀ {y}, y ∈ kept ++ first :: folded → y ∈ states := hperm.mem_iff.mp
    rw [hfold] at hx
    obtain hx | hx := List.mem_append.mp hx
    · have hx := hmem (List.mem_append_left _ hx)
      exact ⟨⟨x, hx, rfl⟩, fun v hv => ⟨x, hx, hv⟩⟩
    · obtain rfl := List.mem_singleton.mp hx
      refine ⟨⟨first, hmem (List.mem_append_right _ List.mem_cons_self), rfl⟩, fun v hv => ?_⟩
      obtain ⟨y, hy, hv⟩ := ((mem_mayVisit _).2 v).mp hv
      exact ⟨y, hmem (List.mem_append_right _ hy), hv⟩

/-- **A fold keeps the cheapest state**, or one that costs as little. -/
theorem exists_le_of_mem (width : Nat) (hs : s ∈ states) :
    ∃ t ∈ fold states width, t.cost ≤ s.cost := by
  by_cases hfits : width = 0 ∨ states.length ≤ width
  · rw [fold_of_fits hfits]
    exact ⟨s, hs, Int.le_refl _⟩
  · obtain ⟨kept, first, folded, hperm, hsorted, -, hfold⟩ := fold_eq hfits
    rw [hfold]
    obtain hs | hs := List.mem_append.mp (hperm.mem_iff.mpr hs)
    · exact ⟨s, List.mem_append_left _ hs, Int.le_refl _⟩
    · refine ⟨_, List.mem_append_right _ (List.mem_singleton.mpr rfl), ?_⟩
      obtain rfl | hs := List.mem_cons.mp hs
      · exact Int.le_refl _
      · exact (List.pairwise_cons.mp (List.pairwise_append.mp hsorted).2.1).1 s hs

/-- A fold that leaves as many states as there were has changed none. -/
theorem fold_eq_self (h : (fold states width).length = states.length) :
    fold states width = states := by
  by_cases hfits : width = 0 ∨ states.length ≤ width
  · exact fold_of_fits hfits
  · obtain ⟨kept, first, folded, -, -, hlen, hfold⟩ := fold_eq hfits
    rw [hfold, List.length_append, List.length_singleton, hlen] at h
    omega

/-! ## A supply of visits -/

/-- The node has a place in a route behind the start. -/
def Placeable (P : Instance) (v : Nat) : Prop :=
  P.isPickup v = true ∨ P.isDelivery v = true ∨ v = P.finish

/-- The feasible nodes last for `k` more visits: a pickup stands for two, as its delivery is still
to come, and so does the end depot for one. -/
structure Lasting (P : Instance) (k : Nat) (nodes : List Nat) : Prop where
  nodup : nodes.Nodup
  supply : k ≤ 2 * nodes.countP P.isPickup + nodes.countP P.isDelivery + 1
  nonempty : nodes = [] → k = 0

theorem Lasting.of_subset {nodes nodes' : List Nat} (h : Lasting P k nodes) (hsub : nodes ⊆ nodes')
    (hnodup : nodes'.Nodup) : Lasting P k nodes' where
  nodup := hnodup
  supply := by
    have hperm := List.subperm_of_subset h.nodup hsub
    have hpickups := hperm.countP_le P.isPickup
    have hdeliveries := hperm.countP_le P.isDelivery
    have hsupply := h.supply
    omega
  nonempty he := h.nonempty (List.subset_nil.mp (he ▸ hsub))

theorem feasibleAfter_eq_erase (hnodup : s.feasible.Nodup) (hv : v ∈ s.feasible)
    (hlast : ¬(s.feasible = [v] ∧ P.isDelivery v = true)) :
    s.feasibleAfter P v = s.feasible.erase v ++ (P.deliveryOf v).toList := by
  rw [feasibleAfter_eq hv, if_neg hlast, hnodup.erase_eq_filter]

theorem eq_singleton_of_erase {nodes : List Nat} (hv : v ∈ nodes) (h : nodes.erase v = []) :
    nodes = [v] := by
  have hlen := List.length_erase_of_mem hv
  rw [h, List.length_nil] at hlen
  have hpos := List.length_pos_of_mem hv
  obtain ⟨w, rfl⟩ := List.length_eq_one_iff.mp (show nodes.length = 1 by omega)
  rw [List.mem_singleton.mp hv]

theorem countP_eq_erase {nodes : List Nat} (hv : v ∈ nodes) (p : Nat → Bool) :
    nodes.countP p = (nodes.erase v).countP p + if p v then 1 else 0 := by
  rw [(List.perm_cons_erase hv).countP_eq, List.countP_cons]

theorem isPickup_of_role {r : Role} (h : P.role? v = some r) :
    P.isPickup v = decide (r = .pickup) := by
  rw [Instance.isPickup, h]
  cases r <;> rfl

theorem isDelivery_of_role {r : Role} (h : P.role? v = some r) :
    P.isDelivery v = decide (r = .delivery) := by
  rw [Instance.isDelivery, h]
  cases r <;> rfl

/-- Nothing becomes feasible after a node that is no pickup, but for the end depot at last. -/
theorem feasibleAfter_of_not_pickup (hnodup : s.feasible.Nodup) (hv : v ∈ s.feasible)
    (hpickup : P.isPickup v = false) (hlast : ¬(s.feasible = [v] ∧ P.isDelivery v = true)) :
    s.feasibleAfter P v = s.feasible.erase v := by
  rw [feasibleAfter_eq_erase hnodup hv hlast, Instance.deliveryOf, hpickup,
    if_neg Bool.false_ne_true, Option.toList_none, List.append_nil]

/-- The end depot has not been counted. -/
theorem Lasting.visit_finish (hP : P.WellFormed) (h : Lasting P (k + 1) s.feasible)
    (hv : P.finish ∈ s.feasible) : Lasting P k (s.feasibleAfter P P.finish) := by
  obtain ⟨hnodup, hsupply, -⟩ := h
  have hp : P.isPickup P.finish = false := isPickup_of_role hP.role_finish
  have hd : P.isDelivery P.finish = false := isDelivery_of_role hP.role_finish
  have hpickups := countP_eq_erase hv P.isPickup
  have hdeliveries := countP_eq_erase hv P.isDelivery
  simp only [hp, hd, Bool.false_eq_true, if_false] at hpickups hdeliveries
  rw [feasibleAfter_of_not_pickup hnodup hv hp fun hlast => by simp [hd] at hlast]
  refine ⟨hnodup.erase _, by omega, fun he => ?_⟩
  rw [he, List.countP_nil] at hpickups hdeliveries
  omega

/-- A delivery has been counted once, and the last one makes room for the end depot. -/
theorem Lasting.visit_delivery (h : Lasting P (k + 1) s.feasible) (hv : v ∈ s.feasible)
    (hdelivery : P.role? v = some .delivery) : Lasting P k (s.feasibleAfter P v) := by
  obtain ⟨hnodup, hsupply, -⟩ := h
  have hp : P.isPickup v = false := isPickup_of_role hdelivery
  have hd : P.isDelivery v = true := isDelivery_of_role hdelivery
  have hpickups := countP_eq_erase hv P.isPickup
  have hdeliveries := countP_eq_erase hv P.isDelivery
  simp only [hp, hd, Bool.false_eq_true, if_false, if_true] at hpickups hdeliveries
  by_cases hlast : s.feasible = [v]
  · rw [feasibleAfter_eq hv, if_pos ⟨hlast, hd⟩]
    refine ⟨List.nodup_singleton _, ?_, fun he => by cases he⟩
    rw [hlast, List.erase_cons_head, List.countP_nil] at hpickups hdeliveries
    rw [hlast] at hsupply
    omega
  · rw [feasibleAfter_of_not_pickup hnodup hv hp fun hone => hlast hone.1]
    exact ⟨hnodup.erase _, by omega, fun he => absurd (eq_singleton_of_erase hv he) hlast⟩

/-- A pickup has been counted twice, and its delivery takes its place. -/
theorem Lasting.visit_pickup (hP : P.WellFormed) (h : Lasting P (k + 1) s.feasible)
    (hall : ∀ a ∈ s.feasible, P.isPickup a = true) (hv : v ∈ s.feasible) :
    Lasting P k (s.feasibleAfter P v) := by
  obtain ⟨hnodup, hsupply, -⟩ := h
  have hp := hall v hv
  have hrole := Instance.role_of_isPickup.mp hp
  have hd : P.isDelivery v = false := isDelivery_of_role hrole
  obtain ⟨d, hvd⟩ := hP.exists_delivery hrole
  have hdp : P.isPickup d = false := isPickup_of_role (hP.delivers hvd)
  have hdd : P.isDelivery d = true := isDelivery_of_role (hP.delivers hvd)
  have hnew : ∀ a ∈ s.feasible.erase v, ∀ b ∈ [d], a ≠ b := by
    intro a ha b hb hab
    have := hall a (List.mem_of_mem_erase ha)
    rw [hab, List.mem_singleton.mp hb, hdp] at this
    cases this
  have hpickups := countP_eq_erase hv P.isPickup
  have hdeliveries := countP_eq_erase hv P.isDelivery
  simp only [hp, hd, Bool.false_eq_true, if_false, if_true] at hpickups hdeliveries
  rw [feasibleAfter_eq_erase hnodup hv fun hlast => by simp [hd] at hlast, hvd, Option.toList_some]
  refine ⟨List.nodup_append.mpr ⟨hnodup.erase _, List.nodup_singleton d, hnew⟩, ?_,
    fun he => by simp at he⟩
  rw [List.countP_append, List.countP_append]
  simp only [hdp, hdd, List.countP_singleton, if_true, Bool.false_eq_true, if_false]
  omega

/-- **Some visit uses up one at most**: the end depot, if it is feasible, or else a delivery, or
else a pickup. -/
theorem Lasting.exists_visit (hP : P.WellFormed) (h : Lasting P (k + 1) s.feasible)
    (hplaces : ∀ v ∈ s.feasible, Placeable P v) :
    ∃ v ∈ s.feasible, Lasting P k (s.feasibleAfter P v) := by
  by_cases hfinish : P.finish ∈ s.feasible
  · exact ⟨P.finish, hfinish, h.visit_finish hP hfinish⟩
  · by_cases hany : ∃ d ∈ s.feasible, P.isDelivery d = true
    · obtain ⟨d, hmem, hd⟩ := hany
      exact ⟨d, hmem, h.visit_delivery hmem (Instance.role_of_isDelivery.mp hd)⟩
    · have hall : ∀ v ∈ s.feasible, P.isPickup v = true := fun v hv =>
        (hplaces v hv).resolve_right fun h => h.elim (fun hd => hany ⟨v, hv, hd⟩)
          fun hf => hfinish (hf ▸ hv)
      obtain ⟨p, hmem⟩ := List.exists_mem_of_ne_nil s.feasible fun he =>
        absurd (h.nonempty he) (Nat.succ_ne_zero k)
      exact ⟨p, hmem, h.visit_pickup hP hall hmem⟩

/-- **The feasible nodes of a partial route last to its end.** -/
theorem Coherent.lasting (h : s.Coherent P) (hP : P.WellFormed) :
    Lasting P (P.size - s.route.length) s.feasible where
  nodup := h.feasible_nodup
  supply := by
    have hsub : List.range P.size ⊆ s.route ++ (s.feasible.filter P.isPickup ++
        (s.feasible.filterMap P.deliveryOf ++ (s.feasible.filter P.isDelivery ++ [P.finish]))) := by
      intro a ha
      simp only [List.mem_append, List.mem_filter, List.mem_filterMap, List.mem_singleton]
      obtain hmem | hmem | hp | hf := h.mem_of_role hP (List.mem_range.mp ha)
      · exact .inl hmem
      · obtain ⟨-, hr | ⟨p, -, hp⟩ | ⟨hf, -⟩⟩ := (h.feasible a).mp hmem
        · exact .inr (.inl ⟨hmem, Instance.role_of_isPickup.mpr hr⟩)
        · exact .inr (.inr (.inr (.inl ⟨hmem, Instance.role_of_isDelivery.mpr (hP.delivers hp)⟩)))
        · exact .inr (.inr (.inr (.inr hf)))
      · exact .inr (.inr (.inl hp))
      · exact .inr (.inr (.inr (.inr hf)))
    have hlen := (List.subperm_of_subset List.nodup_range hsub).length_le
    simp only [List.length_range, List.length_append, List.length_singleton,
      ← List.countP_eq_length_filter, List.length_filterMap_eq_countP] at hlen
    have hdeliveries : s.feasible.countP (fun a => (P.deliveryOf a).isSome) ≤
        s.feasible.countP P.isPickup := List.countP_mono_left fun a _ ha => by
      obtain ⟨d, hd⟩ := Option.isSome_iff_exists.mp ha
      exact Instance.role_of_isPickup.mpr (Instance.role_of_deliveryOf hd)
    omega
  nonempty he := by
    have := (h.isRoute_of_solved hP he).length
    omega

end Fathom.Routing.Visits
