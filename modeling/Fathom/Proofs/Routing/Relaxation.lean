import Fathom.Proofs.Routing.Optimum
import Fathom.Proofs.Routing.Routes
import Fathom.Routing.ArcRelaxation

/-!
# The assignment relaxation bounds closed routes

A route that is closed by the arc from the end depot back to the start gives every node a successor
of its own, which is a permutation of the nodes (`IsRoute.exists_perm`). A relaxation *admits* a
route if it prices all of these arcs as the instance does. The closed route then costs at least what
the optimal assignment costs, and by the reduced cost of any of its arcs more
(`Optimal.add_reducedCost_le`).

What a state knows through its relaxation is told by `Serves`: the relaxation is solved, and it
admits every route that the state may lead to.

Results:
* `Serves.value_le`, `Serves.filters`: the value is a lower bound, and filtering loses no route that
  improves;
* `exists_relaxation`, `serves_relaxation`: the relaxation of an instance is solved, and admits
  every route;
* `Serves.without`: forbidding arcs that no route in question uses keeps that.
-/

namespace Fathom.Routing

variable {P : Instance} {R : List Nat} {a b c : Nat}

/-! ## Closed routes -/

/-- The arcs of a route and the one that closes it. -/
def Instance.closedArcs (P : Instance) (R : List Nat) : List (Nat × Nat) :=
  arcs R ++ [(P.finish, P.start)]

/-- The cost of a route and of the arc that closes it. -/
def Instance.closedCost (P : Instance) (R : List Nat) : Int :=
  P.routeCost R + P.cost P.finish P.start

namespace Instance

theorem mem_closedArcs : (a, b) ∈ P.closedArcs R ↔
    (a, b) ∈ arcs R ∨ (a = P.finish ∧ b = P.start) := by
  simp [closedArcs]

theorem closedCost_eq (P : Instance) (R : List Nat) :
    P.closedCost R = ((P.closedArcs R).map fun arc => P.cost arc.1 arc.2).sum := by
  simp [closedCost, closedArcs, routeCost]

namespace IsRoute

theorem map_fst_closedArcs (h : P.IsRoute R) : (P.closedArcs R).map Prod.fst = R := by
  rw [closedArcs, List.map_append, map_fst_arcs]
  exact List.dropLast_append_getLast? _ h.last

theorem map_snd_closedArcs (h : P.IsRoute R) : ((P.closedArcs R).map Prod.snd).Perm R := by
  rw [closedArcs, List.map_append, map_snd_arcs]
  obtain ⟨l, rfl⟩ := List.head?_eq_some_iff.mp h.first
  exact List.perm_append_singleton _ _

theorem closedArc_lt (h : P.IsRoute R) (hab : (a, b) ∈ P.closedArcs R) :
    a < P.size ∧ b < P.size := by
  have ha := List.mem_map_of_mem (f := Prod.fst) hab
  have hb := List.mem_map_of_mem (f := Prod.snd) hab
  rw [h.map_fst_closedArcs] at ha
  rw [h.map_snd_closedArcs.mem_iff] at hb
  exact ⟨h.mem_iff.mp ha, h.mem_iff.mp hb⟩

/-- A node has one arc from it on a closed route, … -/
theorem closedArc_right_unique (h : P.IsRoute R) (hb : (a, b) ∈ P.closedArcs R)
    (hc : (a, c) ∈ P.closedArcs R) : b = c := by
  rw [mem_closedArcs] at hb hc
  obtain hb | ⟨ha, rfl⟩ := hb
  · obtain hc | ⟨ha, -⟩ := hc
    · exact arc_right_unique h.nodup hb hc
    · exact absurd ha (h.arc_from_ne_finish hb)
  · obtain hc | ⟨-, hc⟩ := hc
    · exact absurd ha (h.arc_from_ne_finish hc)
    · exact hc.symm

/-- … and one to it. -/
theorem closedArc_left_unique (h : P.IsRoute R) (ha : (a, c) ∈ P.closedArcs R)
    (hb : (b, c) ∈ P.closedArcs R) : a = b := by
  rw [mem_closedArcs] at ha hb
  obtain ha | ⟨rfl, hc⟩ := ha
  · obtain hb | ⟨-, hc⟩ := hb
    · exact arc_left_unique h.nodup ha hb
    · exact absurd hc (h.arc_to_ne_start ha)
  · obtain hb | ⟨hb, -⟩ := hb
    · exact absurd hc (h.arc_to_ne_start hb)
    · exact hb.symm

/-- **A closed route is a permutation of the nodes.** -/
theorem exists_perm (h : P.IsRoute R) {n : Nat} (hn : n = P.size) :
    ∃ q : Equiv.Perm (Fin n), (∀ i : Fin n, ((i : Nat), (q i : Nat)) ∈ P.closedArcs R) ∧
      ∀ f : Nat → Nat → Int, ∑ i : Fin n, f i (q i) =
        ((P.closedArcs R).map fun arc => f arc.1 arc.2).sum := by
  have hnext : ∀ a < P.size, ∃ b, (a, b) ∈ P.closedArcs R := by
    intro a ha
    have hmem := h.mem_iff.mpr ha
    rw [← h.map_fst_closedArcs] at hmem
    obtain ⟨⟨a, b⟩, hab, rfl⟩ := List.mem_map.mp hmem
    exact ⟨b, hab⟩
  choose! next hnext using hnext
  have hlt : ∀ i : Fin n, next i < n := fun i => by
    have := (h.closedArc_lt (hnext i (hn ▸ i.2))).2
    omega
  have hinj : Function.Injective fun i : Fin n => (⟨next i, hlt i⟩ : Fin n) := by
    intro i j hij
    have hij' : next i = next j := congrArg Fin.val hij
    have hi := hnext i (hn ▸ i.2)
    rw [hij'] at hi
    exact Fin.ext (h.closedArc_left_unique hi (hnext j (hn ▸ j.2)))
  refine ⟨Equiv.ofBijective _ (Finite.injective_iff_bijective.mp hinj),
    fun i => hnext i (hn ▸ i.2), fun f => ?_⟩
  -- both sums run over the nodes, once in order and once along the route
  have harcs : (P.closedArcs R).map (fun arc => f arc.1 arc.2) =
      ((P.closedArcs R).map Prod.fst).map fun a => f a (next a) := by
    rw [List.map_map]
    refine List.map_congr_left fun arc harc => ?_
    have ha := (h.closedArc_lt (a := arc.1) (b := arc.2) harc).1
    rw [Function.comp, h.closedArc_right_unique (hnext arc.1 ha) (c := arc.2) harc]
  rw [harcs, h.map_fst_closedArcs, (h.visits.map _).sum_eq, nodes, ← hn]
  exact (Finset.sum_range fun a => f a (next a)).symm

end IsRoute

end Instance

namespace Assignment

variable {a b : Assignment} {most : Int} {i j : Nat}

/-! ## Reduced costs -/

theorem reducedCost_eq_ok {r : Int} (h : a.reducedCost i j = .ok r) : ∃ c u v,
    cell a.costs i j = .ok c ∧ entry a.rowDuals i = .ok u ∧ entry a.columnDuals j = .ok v ∧
      r = c - u - v := by
  obtain ⟨c, hc, h⟩ := bind_eq_ok_iff.mp h
  obtain ⟨u, hu, h⟩ := bind_eq_ok_iff.mp h
  obtain ⟨d, hd, h⟩ := bind_eq_ok_iff.mp h
  obtain ⟨v, hv, h⟩ := bind_eq_ok_iff.mp h
  obtain ⟨-, rfl⟩ := Cost.sub_eq_ok_iff.mp hd
  obtain ⟨-, rfl⟩ := Cost.sub_eq_ok_iff.mp h
  exact ⟨c, u, v, hc, hu, hv, rfl⟩

/-- The reduced costs of a permutation sum to what it costs more than the optimum. -/
theorem Optimal.sum_reducedCost {p : Equiv.Perm (Fin a.costs.size)} (h : Optimal a p)
    (q : Equiv.Perm (Fin a.costs.size)) (r : Fin a.costs.size → Fin a.costs.size → Int)
    (hr : ∀ i j : Fin a.costs.size, a.reducedCost i j = .ok (r i j)) :
    ∑ i, r i (q i) = total a.costs q - a.value := by
  -- the duals are read off the diagonal, where every row and every column occurs
  have hduals : ∃ u v : Fin a.costs.size → Int, ∀ i j, r i j = cost a.costs i j - u i - v j := by
    have hrow : ∀ i : Fin a.costs.size, ∃ u, entry a.rowDuals i = .ok u := fun i => by
      obtain ⟨_, u, _, -, hu, -⟩ := reducedCost_eq_ok (hr i i)
      exact ⟨u, hu⟩
    have hcolumn : ∀ j : Fin a.costs.size, ∃ v, entry a.columnDuals j = .ok v := fun j => by
      obtain ⟨_, _, v, -, -, hv, -⟩ := reducedCost_eq_ok (hr j j)
      exact ⟨v, hv⟩
    choose u hu using hrow
    choose v hv using hcolumn
    refine ⟨u, v, fun i j => ?_⟩
    obtain ⟨c, u', v', hc, hu', hv', he⟩ := reducedCost_eq_ok (hr i j)
    rw [hu, Except.ok.injEq] at hu'
    rw [hv, Except.ok.injEq] at hv'
    rw [he, cost_of_cell hc, hu', hv']
  obtain ⟨u, v, huv⟩ := hduals
  have hsum : ∀ q : Equiv.Perm (Fin a.costs.size),
      ∑ i, r i (q i) = total a.costs q - (∑ i, u i + ∑ j, v j) := fun q => by
    calc ∑ i, r i (q i) = ∑ i : Fin a.costs.size, (cost a.costs i (q i) - (u i + v (q i))) :=
          Finset.sum_congr rfl fun i _ => by rw [huv, Int.sub_sub]
      _ = total a.costs q - (∑ i, u i + ∑ j, v j) := by
          rw [Finset.sum_sub_distrib, Finset.sum_add_distrib, Equiv.sum_comp q]
          rfl
  have hzero : ∑ i, r i (p i) = 0 := Finset.sum_eq_zero fun i _ => by
    have := h.zero i
    rwa [hr, Except.ok.injEq] at this
  have hp := hsum p
  rw [hzero, ← h.value] at hp
  rw [hsum q]
  omega

/-- **A permutation costs more than the optimum by the reduced cost of each of its arcs.** -/
theorem Optimal.add_reducedCost_le {p : Equiv.Perm (Fin a.costs.size)} (h : Optimal a p)
    (q : Equiv.Perm (Fin a.costs.size)) {r : Int} {i : Fin a.costs.size}
    (hr : a.reducedCost i (q i) = .ok r) : a.value + r ≤ total a.costs q := by
  choose reduced hreduced hnonneg using h.nonneg
  have hsum := h.sum_reducedCost q reduced hreduced
  have hle := Finset.single_le_sum (f := fun i => reduced i (q i)) (fun i _ => hnonneg i (q i))
    (Finset.mem_univ i)
  rw [hreduced, Except.ok.injEq] at hr
  omega

/-- A permutation costs as much as its rows may. -/
theorem total_bounds {costs : Array (Array Int)} (h : Within costs most)
    (q : Equiv.Perm (Fin costs.size)) :
    -(costs.size * most) ≤ total costs q ∧ total costs q ≤ costs.size * most := by
  have hlow := Finset.card_nsmul_le_sum Finset.univ (fun i : Fin costs.size => cost costs i (q i))
    (-most) fun i _ => h.ge i.2 (q i).2
  have hhigh := Finset.sum_le_card_nsmul Finset.univ (fun i : Fin costs.size => cost costs i (q i))
    most fun i _ => h.le i.2 (q i).2
  rw [Finset.card_univ, Fintype.card_fin, nsmul_eq_mul] at hlow hhigh
  rw [Int.mul_neg] at hlow
  exact ⟨hlow, hhigh⟩

/-- **Filtering answers**: value and reduced cost of an arc are at most what a permutation with the
arc costs. -/
theorem Optimal.filters_total {p : Equiv.Perm (Fin a.costs.size)} (h : Optimal a p)
    (ha : Ready most a) (hi : i < a.costs.size) (hj : j < a.costs.size) (best : Option Int) :
    ∃ verdict, a.filters i j best = .ok verdict := by
  cases best with
  | none => exact ⟨false, rfl⟩
  | some b =>
    obtain ⟨r, hr, hnonneg⟩ := h.nonneg ⟨i, hi⟩ ⟨j, hj⟩
    let q : Equiv.Perm (Fin a.costs.size) := p.trans (Equiv.swap (p ⟨i, hi⟩) ⟨j, hj⟩)
    have hq : q ⟨i, hi⟩ = ⟨j, hj⟩ := Equiv.swap_apply_left ..
    have hle := h.add_reducedCost_le q (r := r) (i := ⟨i, hi⟩) (hq ▸ hr)
    have hlow := (total_bounds ha.within p).1
    have hhigh := (total_bounds ha.within q).2
    rw [← h.value] at hlow
    have hadd : Cost.add a.value r = .ok (a.value + r) := Cost.add_eq_ok_iff.mpr
      ⟨ha.within.inRange_total (Nat.le_refl _) (by omega) (by omega), rfl⟩
    exact ⟨_, bind_eq_ok_iff.mpr ⟨r, hr, bind_eq_ok_iff.mpr ⟨_, hadd, rfl⟩⟩⟩

theorem filters_eq_true {b : Int} (h : a.filters i j (some b) = .ok true) :
    ∃ r, a.reducedCost i j = .ok r ∧ b ≤ a.value + r := by
  obtain ⟨r, hr, h⟩ := bind_eq_ok_iff.mp h
  obtain ⟨c, hc, h⟩ := bind_eq_ok_iff.mp h
  obtain ⟨-, rfl⟩ := Cost.add_eq_ok_iff.mp hc
  exact ⟨r, hr, of_decide_eq_true (Except.ok.inj h)⟩

/-! ## Relaxations that admit routes -/

/-- The relaxation prices the arcs of the closed route as the instance does. -/
def Admits (P : Instance) (a : Assignment) (R : List Nat) : Prop :=
  ∀ i j, (i, j) ∈ P.closedArcs R → cell a.costs i j = .ok (P.cost i j)

/-- The relaxation is solved, and it admits the routes that are of interest. -/
structure Serves (P : Instance) (most : Int) (interest : List Nat → Prop) (a : Assignment) :
    Prop where
  ready : Ready most a
  size : a.costs.size = P.size
  optimal : ∃ p, Optimal a p
  admits : ∀ R, P.IsRoute R → interest R → Admits P a R

namespace Serves

variable {interest interest' : List Nat → Prop}

theorem mono (h : Serves P most interest a)
    (hle : ∀ R, P.IsRoute R → interest' R → interest R) : Serves P most interest' a :=
  ⟨h.ready, h.size, h.optimal, fun R hR hi => h.admits R hR (hle R hR hi)⟩

/-- A route of interest is a permutation that costs as much as the closed route. -/
theorem exists_perm (h : Serves P most interest a) (hR : P.IsRoute R) (hi : interest R) :
    ∃ q : Equiv.Perm (Fin a.costs.size),
      (∀ i : Fin a.costs.size, ((i : Nat), (q i : Nat)) ∈ P.closedArcs R) ∧
        total a.costs q = P.closedCost R := by
  obtain ⟨q, hq, hsum⟩ := hR.exists_perm h.size
  refine ⟨q, hq, ?_⟩
  rw [Instance.closedCost_eq, total, hsum (cost a.costs)]
  refine congrArg List.sum (List.map_congr_left fun arc harc => ?_)
  exact cost_of_cell (h.admits R hR hi arc.1 arc.2 harc)

/-- **The value bounds the closed routes of interest from below.** -/
theorem value_le (h : Serves P most interest a) (hR : P.IsRoute R) (hi : interest R) :
    a.value ≤ P.closedCost R := by
  obtain ⟨p, hp⟩ := h.optimal
  obtain ⟨q, -, hq⟩ := h.exists_perm hR hi
  rw [← hq]
  exact hp.least q

/-- **No arc is filtered that belongs to an improving route of interest.** -/
theorem le_of_filters (h : Serves P most interest a) (hR : P.IsRoute R) (hi : interest R)
    (harc : (i, j) ∈ arcs R) {b : Int} (hfilters : a.filters i j (some b) = .ok true) :
    b ≤ P.closedCost R := by
  obtain ⟨p, hp⟩ := h.optimal
  obtain ⟨q, hmem, hq⟩ := h.exists_perm hR hi
  obtain ⟨r, hr, hb⟩ := filters_eq_true hfilters
  have hlt : i < a.costs.size := h.size ▸ hR.mem_iff.mp (mem_left_of_arc harc)
  have hij : (q ⟨i, hlt⟩ : Nat) = j := hR.closedArc_right_unique (hmem ⟨i, hlt⟩)
    (Instance.mem_closedArcs.mpr (.inl harc))
  have hle := hp.add_reducedCost_le q (r := r) (i := ⟨i, hlt⟩) (by rw [hij]; exact hr)
  omega

theorem filters_total (h : Serves P most interest a) (hi : i < P.size) (hj : j < P.size)
    (best : Option Int) : ∃ verdict, a.filters i j best = .ok verdict := by
  obtain ⟨p, hp⟩ := h.optimal
  exact hp.filters_total h.ready (h.size ▸ hi) (h.size ▸ hj) best

end Serves

/-! ## Forbidding more arcs -/

/-- Forbidding arcs changes their prices, and no others. -/
theorem cell_foldlM_remove {removed : List (Nat × Nat)}
    (h : removed.foldlM (fun a arc => a.remove arc.1 arc.2) a = .ok b) (ha : Ready most a)
    (hmost : forbidden ≤ most) : Ready most b ∧ b.costs.size = a.costs.size ∧ ∀ i j,
      cell b.costs i j = if (i, j) ∈ removed then .ok forbidden else cell a.costs i j := by
  induction removed generalizing a with
  | nil =>
    cases h
    exact ⟨ha, rfl, fun _ _ => rfl⟩
  | cons arc removed ih =>
    rw [List.foldlM_cons] at h
    obtain ⟨c, hc, h⟩ := bind_eq_ok_iff.mp h
    obtain ⟨hb, hsize, hcell⟩ := ih h (ha.remove hmost hc)
    refine ⟨hb, hsize.trans (size_remove hc), fun i j => ?_⟩
    rw [hcell i j, cell_remove hc]
    by_cases hm : (i, j) ∈ removed
    · rw [if_pos hm, if_pos (List.mem_cons_of_mem _ hm)]
    · have hiff : (i, j) ∈ arc :: removed ↔ i = arc.1 ∧ j = arc.2 := by
        rw [List.mem_cons, or_iff_left hm, Prod.ext_iff]
      rw [if_neg hm]
      exact (if_congr hiff rfl rfl).symm

theorem foldlM_remove_total {removed : List (Nat × Nat)} (ha : Ready most a)
    (hmost : forbidden ≤ most)
    (hlt : ∀ arc ∈ removed, arc.1 < a.costs.size ∧ arc.2 < a.costs.size) :
    ∃ b, removed.foldlM (fun a arc => a.remove arc.1 arc.2) a = .ok b := by
  induction removed generalizing a with
  | nil => exact ⟨a, rfl⟩
  | cons arc removed ih =>
    obtain ⟨hi, hj⟩ := hlt arc List.mem_cons_self
    obtain ⟨c, hc⟩ := remove_total (ha.within.cell hi hj)
    obtain ⟨b, hb⟩ := ih (ha.remove hmost hc) fun other hother =>
      (size_remove hc).symm ▸ hlt other (List.mem_cons_of_mem _ hother)
    refine ⟨b, ?_⟩
    rw [List.foldlM_cons, hc]
    exact hb

/-- The prices after forbidding arcs. -/
theorem cell_without {removed : List (Nat × Nat)} (h : a.without removed = .ok b)
    (ha : Ready most a) (hmost : forbidden ≤ most) (i j : Nat) :
    cell b.costs i j = if (i, j) ∈ removed then .ok forbidden else cell a.costs i j := by
  obtain ⟨c, hc, hb⟩ := bind_eq_ok_iff.mp h
  rw [costs_solve hb]
  exact (cell_foldlM_remove hc ha hmost).2.2 i j

/-- **Forbidding arcs that no route of interest uses** keeps the relaxation fit for them. -/
theorem Serves.without {interest interest' : List Nat → Prop} {removed : List (Nat × Nat)}
    (h : Serves P most interest a) (hmost : forbidden ≤ most)
    (hlt : ∀ arc ∈ removed, arc.1 < P.size ∧ arc.2 < P.size)
    (hfree : ∀ R, P.IsRoute R → interest' R →
      interest R ∧ ∀ arc ∈ removed, arc ∉ P.closedArcs R) :
    ∃ b, a.without removed = .ok b ∧ Serves P most interest' b := by
  have hlt' : ∀ arc ∈ removed, arc.1 < a.costs.size ∧ arc.2 < a.costs.size := h.size ▸ hlt
  obtain ⟨c, hc⟩ := foldlM_remove_total h.ready hmost hlt'
  obtain ⟨hready, hsize, -⟩ := cell_foldlM_remove hc h.ready hmost
  obtain ⟨b, hsolve, hcosts, hready', hoptimal⟩ := hready.solve
  have hb : a.without removed = .ok b := bind_eq_ok_iff.mpr ⟨c, hc, hsolve⟩
  refine ⟨b, hb, hready', hcosts ▸ hsize.trans h.size, hoptimal, fun R hR hi i j hij => ?_⟩
  obtain ⟨hi', hnot⟩ := hfree R hR hi
  rw [cell_without hb h.ready hmost, if_neg fun hm => hnot _ hm hij]
  exact h.admits R hR hi' i j hij

theorem mem_rivals {target : Nat} {arc : Nat × Nat} :
    arc ∈ a.rivals i target ↔ arc.1 < a.costs.size ∧ arc.1 ≠ i ∧ arc.2 = target := by
  obtain ⟨k, j⟩ := arc
  simp only [rivals, size, List.mem_map, List.mem_filter, List.mem_range, bne_iff_ne, Prod.mk.injEq]
  constructor
  · rintro ⟨_, hk, rfl, rfl⟩
    exact ⟨hk.1, hk.2, rfl⟩
  · rintro ⟨hlt, hne, rfl⟩
    exact ⟨k, ⟨hlt, hne⟩, rfl, rfl⟩

/-- The rivals of an arc of a route are none. -/
theorem not_mem_closedArcs_of_rival (hR : P.IsRoute R) (harc : (i, j) ∈ arcs R) {arc : Nat × Nat}
    (h : arc ∈ a.rivals i j) : arc ∉ P.closedArcs R := by
  obtain ⟨-, hne, hj⟩ := mem_rivals.mp h
  intro hm
  exact hne (hR.closedArc_left_unique (c := j) (hj ▸ hm) (Instance.mem_closedArcs.mpr (.inl harc)))

/-! ## The relaxation of an instance -/

/-- Costs that leave room for the relaxation leave room for the routes. -/
theorem room_for_routes (hroom : 4 * (P.size + 1) * max most forbidden ≤ Cost.greatest) :
    (P.size + 1) * max most forbidden ≤ Cost.greatest := by
  have hzero : 0 ≤ max most forbidden := Int.le_trans (by decide) (Int.le_max_right ..)
  have hnonneg : 0 ≤ (P.size + 1) * max most forbidden := Int.mul_nonneg (by omega) hzero
  rw [Int.mul_assoc] at hroom
  omega

/-- **The relaxation of an instance is solved** if costs are small. It has a price for each arc. -/
theorem exists_relaxation (hbounded : P.Bounded most)
    (hroom : 4 * (P.size + 1) * max most forbidden ≤ Cost.greatest) :
    ∃ a, P.relaxation = .ok a ∧ Serves P (max most forbidden) (fun _ => False) a ∧
      ∀ i j, i < P.size → j < P.size → cell a.costs i j = .ok (P.arcPrice i j) := by
  let costs : Array (Array Int) :=
    (P.nodes.map fun a => (P.nodes.map fun b => P.arcPrice a b).toArray).toArray
  have hsize : costs.size = P.size := by simp [costs, Instance.nodes]
  have hcell : ∀ i j, i < P.size → j < P.size → cell costs i j = .ok (P.arcPrice i j) := by
    intro i j hi hj
    simp [cell, costs, Instance.nodes, hi, hj]
  have hprice : ∀ i j, i < P.size → j < P.size →
      -max most forbidden ≤ P.arcPrice i j ∧ P.arcPrice i j ≤ max most forbidden := by
    intro i j hi hj
    have hforbidden : (0 : Int) ≤ forbidden := by decide
    obtain ⟨hlow, hhigh⟩ := hbounded i j hi hj
    unfold Instance.arcPrice
    split <;> omega
  have hready : Ready (max most forbidden) ⟨costs, List.replicate costs.size 0,
      List.replicate costs.size 0, List.replicate costs.size 0, 0⟩ := by
    refine ⟨.of_cell (fun i j hi hj => ?_) ?_ (hsize.symm ▸ hroom), List.length_replicate⟩
    · rw [hsize] at hi hj
      exact ⟨_, hcell i j hi hj, hprice i j hi hj⟩
    · exact Int.le_trans (by decide) (Int.le_max_right most forbidden)
  obtain ⟨a, ha, hcosts, hready, hoptimal⟩ := hready.solve
  exact ⟨a, ha, ⟨hready, hcosts ▸ hsize, hoptimal, fun _ _ h => h.elim⟩, hcosts ▸ hcell⟩

/-- **It admits every route** if there is a request. -/
theorem serves_relaxation (hP : P.WellFormed) (hreq : P.pickups ≠ []) (hbounded : P.Bounded most)
    (hroom : 4 * (P.size + 1) * max most forbidden ≤ Cost.greatest) :
    ∃ a, P.relaxation = .ok a ∧ Serves P (max most forbidden) (fun _ => True) a := by
  obtain ⟨a, ha, hsolved, hcell⟩ := exists_relaxation hbounded hroom
  refine ⟨a, ha, hsolved.ready, hsolved.size, hsolved.optimal, fun R hR _ i j hij => ?_⟩
  obtain ⟨hi, hj⟩ := hR.closedArc_lt hij
  rw [hcell i j hi hj, Instance.arcPrice, if_pos ?_]
  obtain hij | hij := Instance.mem_closedArcs.mp hij
  · exact .inr (hR.isFeasible hP hreq hij)
  · exact .inl hij

end Assignment

end Fathom.Routing
