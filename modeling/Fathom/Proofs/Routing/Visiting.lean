import Fathom.Proofs.Lockstep
import Fathom.Proofs.Routing.Matching
import Fathom.Proofs.Routing.Routes
import Fathom.Routing.Visits

/-!
# Partial routes

`Visits.go` is the partial route after one more visit, its cost computed exactly; `visit_eq_ok_iff`
says when `Visits.visit` answers with it. `Visits.Coherent` is what a partial route is: it begins in
the start depot, repeats no node, comes to no delivery before its pickup and to the end depot last,
and its feasible nodes are the ones that are *open*. A delivery has one pickup only, so that the
node after a partial route is open in every route that continues it.

Results:
* `expand_plain`: without hints, all feasible visits are made;
* `coherent_root`, `Coherent.go`: the root is coherent, and so is every visit of a feasible node;
* `Coherent.of_steps`: expansions reach coherent states only, whatever their hints;
* `Coherent.exists_next`: a route continues a partial route by one of its feasible nodes;
* `Coherent.isRoute_of_solved`: where nothing is feasible, the partial route is a route.
-/

namespace Fathom.Routing.Visits

variable {P : Instance} {s t : Visits} {a v : Nat} {R : List Nat}
  {relaxation dual : Option Assignment} {best : Option Int} {next : List Visits}

/-! ## Visits -/

/-- The partial route that goes on to `v`, its cost computed exactly. -/
def go (P : Instance) (s : Visits) (relaxation : Option Assignment) (v : Nat) : Visits where
  node := v
  earlier := s.node :: s.earlier
  feasible := s.feasibleAfter P v
  cost := s.cost + P.cost s.node v
  relaxation

theorem route_eq (s : Visits) : s.route = s.earlier.reverse ++ [s.node] := List.reverse_cons

@[simp] theorem route_go : (s.go P relaxation v).route = s.route ++ [v] := List.reverse_cons

theorem node_mem_route (s : Visits) : s.node ∈ s.route := by simp [route]

/-- **What becomes of a visit**: it is ruled out by the incumbent or by the relaxation, or made. -/
theorem visit_eq_ok_iff {r : Option Visits} : s.visit P dual best v = .ok r ↔
    Cost.InRange (s.cost + P.cost s.node v) ∧
    ((Cost.beats best (s.cost + P.cost s.node v) = false ∧ r = none) ∨
    (Cost.beats best (s.cost + P.cost s.node v) = true ∧
      Assignment.filtersAny dual s.node v best = .ok true ∧ r = none) ∨
    (Cost.beats best (s.cost + P.cost s.node v) = true ∧
      Assignment.filtersAny dual s.node v best = .ok false ∧
      r = some (s.go P (dual <|> s.relaxation) v))) := by
  rw [visit, bind_eq_ok_iff]
  constructor
  · rintro ⟨cost, hcost, h⟩
    obtain ⟨hrange, rfl⟩ := Cost.add_eq_ok_iff.mp hcost
    refine ⟨hrange, ?_⟩
    cases hbeats : Cost.beats best (s.cost + P.cost s.node v) with
    | false =>
      rw [hbeats] at h
      exact .inl ⟨rfl, (Except.ok.inj h).symm⟩
    | true =>
      rw [hbeats] at h
      obtain ⟨filters, hfilters, h⟩ := bind_eq_ok_iff.mp h
      cases filters with
      | true => exact .inr (.inl ⟨rfl, hfilters, (Except.ok.inj h).symm⟩)
      | false => exact .inr (.inr ⟨rfl, hfilters, (Except.ok.inj h).symm⟩)
  · rintro ⟨hrange, h⟩
    refine ⟨_, Cost.add_eq_ok_iff.mpr ⟨hrange, rfl⟩, ?_⟩
    obtain ⟨hbeats, rfl⟩ | ⟨hbeats, hfilters, rfl⟩ | ⟨hbeats, hfilters, rfl⟩ := h
    · rw [hbeats]
      rfl
    · rw [hbeats]
      exact bind_eq_ok_iff.mpr ⟨true, hfilters, rfl⟩
    · rw [hbeats]
      exact bind_eq_ok_iff.mpr ⟨false, hfilters, rfl⟩

/-- **The visits that are made** are some of the feasible ones. -/
theorem mem_of_expand (h : expand P s dual best = .ok next) (ht : t ∈ next) :
    ∃ v ∈ s.feasible, t = s.go P (dual <|> s.relaxation) v := by
  obtain ⟨reached, hreached, h⟩ := bind_eq_ok_iff.mp h
  cases h
  obtain ⟨r, hr, hrt⟩ := List.mem_filterMap.mp ht
  obtain ⟨v, hv, hvisit⟩ := forall₂_mem_right (mapM_eq_ok_iff.mp hreached) hr
  obtain ⟨-, ⟨-, h⟩ | ⟨-, -, h⟩ | ⟨-, -, h⟩⟩ := visit_eq_ok_iff.mp hvisit
  · rw [h] at hrt
    cases hrt
  · rw [h] at hrt
    cases hrt
  · rw [h] at hrt
    exact ⟨v, hv, (Option.some.inj hrt).symm⟩

/-- A visit that is not made is ruled out by the incumbent or by the relaxation. -/
theorem mem_expand (h : expand P s dual best = .ok next) (hv : v ∈ s.feasible)
    (hbeats : Cost.beats best (s.cost + P.cost s.node v) = true)
    (hfilters : Assignment.filtersAny dual s.node v best ≠ .ok true) :
    s.go P (dual <|> s.relaxation) v ∈ next := by
  obtain ⟨reached, hreached, h⟩ := bind_eq_ok_iff.mp h
  cases h
  obtain ⟨r, hr, hvisit⟩ := forall₂_mem_left (mapM_eq_ok_iff.mp hreached) hv
  obtain ⟨-, ⟨h, -⟩ | ⟨-, h, -⟩ | ⟨-, -, rfl⟩⟩ := visit_eq_ok_iff.mp hvisit
  · rw [hbeats] at h
    cases h
  · exact absurd h hfilters
  · exact List.mem_filterMap.mpr ⟨_, hr, rfl⟩

/-- **An expansion answers** if neither the costs nor the relaxation overflow. -/
theorem expand_total (h : ∀ v ∈ s.feasible, Cost.InRange (s.cost + P.cost s.node v) ∧
    ∃ verdict, Assignment.filtersAny dual s.node v best = .ok verdict) :
    ∃ next, expand P s dual best = .ok next := by
  have hvisit : ∀ v ∈ s.feasible, ∃ r, s.visit P dual best v = .ok r := by
    intro v hv
    obtain ⟨hrange, verdict, hverdict⟩ := h v hv
    cases hbeats : Cost.beats best (s.cost + P.cost s.node v) with
    | false => exact ⟨_, visit_eq_ok_iff.mpr ⟨hrange, .inl ⟨hbeats, rfl⟩⟩⟩
    | true =>
      cases verdict with
      | true => exact ⟨_, visit_eq_ok_iff.mpr ⟨hrange, .inr (.inl ⟨hbeats, hverdict, rfl⟩)⟩⟩
      | false => exact ⟨_, visit_eq_ok_iff.mpr ⟨hrange, .inr (.inr ⟨hbeats, hverdict, rfl⟩)⟩⟩
  obtain ⟨reached, hreached⟩ := mapM_total hvisit
  exact ⟨_, bind_eq_ok_iff.mpr ⟨reached, hreached, rfl⟩⟩

/-! ## Expansions without hints -/

theorem visit_plain (v : Nat) : s.visit P none none v = .error .overflow ∨
    s.visit P none none v = .ok (some (s.go P s.relaxation v)) := by
  by_cases hrange : Cost.InRange (s.cost + P.cost s.node v)
  · exact .inr (visit_eq_ok_iff.mpr ⟨hrange, .inr (.inr ⟨rfl, rfl, rfl⟩)⟩)
  · refine .inl ?_
    rw [visit, Cost.add, Cost.checked, if_neg hrange]
    rfl

/-- **Without hints, every feasible visit is made**, unless a cost overflows. -/
theorem expand_plain (s : Visits) : expand P s none none = .error .overflow ∨
    expand P s none none = .ok (s.feasible.map (s.go P s.relaxation)) := by
  unfold expand
  generalize s.feasible = feasible
  cases hreached : feasible.mapM (s.visit P none none) with
  | error f =>
    obtain ⟨v, -, hv⟩ := mapM_eq_error hreached
    obtain h | h := visit_plain (P := P) (s := s) v
    · rw [hv] at h
      cases h
      exact .inl rfl
    · rw [hv] at h
      cases h
  | ok reached =>
    refine .inr (congrArg Except.ok ?_)
    have hall := mapM_eq_ok_iff.mp hreached
    clear hreached
    induction hall with
    | nil => rfl
    | @cons v r _ _ hvisit _ ih =>
      obtain h | h := visit_plain (P := P) (s := s) v
      · rw [hvisit] at h
        cases h
      · rw [hvisit] at h
        cases h
        exact congrArg _ ih

/-! ## Nodes -/

/-- The node and the feasible ones are nodes of the instance. -/
structure InNodes (P : Instance) (s : Visits) : Prop where
  node_lt : s.node < P.size
  feasible_lt : ∀ v ∈ s.feasible, v < P.size

theorem mem_feasibleAfter (h : a ∈ s.feasibleAfter P v) :
    a = P.finish ∨ (a ∈ s.feasible ∧ a ≠ v) ∨ P.deliveryOf v = some a := by
  unfold feasibleAfter at h
  split at h
  · exact .inl (List.mem_singleton.mp h)
  · rw [List.mem_append, List.mem_filter, bne_iff_ne, Option.mem_toList] at h
    exact .inr h

/-- What may be visited after `v`: the end depot after the last delivery, and else what may be
visited now, and the delivery of `v`. -/
theorem feasibleAfter_eq (hv : v ∈ s.feasible) : s.feasibleAfter P v =
    if s.feasible = [v] ∧ P.isDelivery v = true then [P.finish]
    else s.feasible.filter (· != v) ++ (P.deliveryOf v).toList := by
  have hcond : (s.feasible.length == 1 && s.feasible.all P.isDelivery) = true ↔
      s.feasible = [v] ∧ P.isDelivery v = true := by
    rw [Bool.and_eq_true, beq_iff_eq, List.length_eq_one_iff]
    constructor
    · rintro ⟨⟨w, hw⟩, hall⟩
      rw [hw, List.mem_singleton] at hv
      rw [hw] at hall
      exact ⟨hv ▸ hw, by simpa [hv] using hall⟩
    · rintro ⟨hone, hdelivery⟩
      exact ⟨⟨v, hone⟩, by simpa [hone] using hdelivery⟩
  unfold feasibleAfter
  simp only [hcond]

theorem InNodes.go (h : InNodes P s) (hP : P.WellFormed) (hv : v ∈ s.feasible) :
    InNodes P (s.go P relaxation v) where
  node_lt := h.feasible_lt v hv
  feasible_lt a ha := by
    obtain rfl | ⟨ha, -⟩ | ha := mem_feasibleAfter ha
    · exact hP.finish_lt
    · exact h.feasible_lt a ha
    · exact hP.lt_of_role (hP.delivers ha)

/-! ## Partial routes -/

/-- The node may be visited next: it is a pickup, or a delivery whose pickup has been visited, or
the end depot after all other nodes. -/
def Open (P : Instance) (s : Visits) (v : Nat) : Prop :=
  v ∉ s.route ∧ (P.role? v = some .pickup ∨ (∃ p ∈ s.route, P.deliveryOf p = some v) ∨
    (v = P.finish ∧ ∀ a < P.size, a ≠ P.finish → a ∈ s.route))

/-- What a partial route is. -/
structure Coherent (P : Instance) (s : Visits) : Prop where
  first : s.route.head? = some P.start
  nodup : s.route.Nodup
  lt : ∀ a ∈ s.route, a < P.size
  ordered : ∀ p d, P.deliveryOf p = some d → d ∈ s.route →
    p ∈ s.route ∧ s.route.idxOf p < s.route.idxOf d
  last : P.finish ∈ s.route → s.node = P.finish ∧ ∀ a < P.size, a ∈ s.route
  feasible_nodup : s.feasible.Nodup
  feasible : ∀ v, v ∈ s.feasible ↔ Open P s v
  cost : s.cost = P.routeCost s.route

theorem Open.lt (h : Open P s v) (hP : P.WellFormed) : v < P.size := by
  obtain ⟨-, h | ⟨p, -, h⟩ | ⟨rfl, -⟩⟩ := h
  · exact hP.lt_of_role h
  · exact hP.lt_of_role (hP.delivers h)
  · exact hP.finish_lt

/-- The root is built once the relaxation is, if that is asked for. -/
theorem root_eq_ok_iff {infer : Bool} {r : Visits} : root P infer = .ok r ↔
    ∃ relaxation, (if infer then some <$> P.relaxation else .ok none) = .ok relaxation ∧
      ⟨P.start, [], P.pickups, 0, relaxation⟩ = r :=
  optional_eq_ok_iff

/-- **The root is coherent**, if there is a request. -/
theorem coherent_root (hP : P.WellFormed) (hreq : P.pickups ≠ []) :
    Coherent P ⟨P.start, [], P.pickups, 0, relaxation⟩ := by
  have hroute : route ⟨P.start, [], P.pickups, 0, relaxation⟩ = [P.start] := rfl
  constructor
  · rfl
  · exact List.nodup_singleton _
  · intro a ha
    rw [hroute, List.mem_singleton] at ha
    exact ha ▸ hP.start_lt
  · intro p d hpd hd
    rw [hroute, List.mem_singleton] at hd
    exact absurd hd (Instance.ne_of_role (hP.delivers hpd) hP.role_start (by decide))
  · intro hf
    exact absurd (List.mem_singleton.mp hf).symm hP.start_ne_finish
  · exact List.nodup_range.filter _
  · intro v
    rw [Open, hroute, Instance.pickups, List.mem_filter, Instance.role_of_isPickup,
      Instance.nodes, List.mem_range]
    constructor
    · rintro ⟨-, hv⟩
      exact ⟨fun hm => Instance.ne_of_role hv hP.role_start (by decide) (List.mem_singleton.mp hm),
        .inl hv⟩
    · rintro ⟨-, hv | ⟨p, hp, hv⟩ | ⟨-, hall⟩⟩
      · exact ⟨hP.lt_of_role hv, hv⟩
      · exact absurd (List.mem_singleton.mp hp)
          (Instance.ne_of_role (Instance.role_of_deliveryOf hv) hP.role_start (by decide))
      · -- a pickup is neither depot
        obtain ⟨p, hp⟩ := List.exists_mem_of_ne_nil _ hreq
        rw [Instance.pickups, List.mem_filter, Instance.role_of_isPickup] at hp
        have hne := Instance.ne_of_role hp.2 hP.role_finish (by decide)
        have := List.mem_singleton.mp (hall p (hP.lt_of_role hp.2) hne)
        exact absurd this (Instance.ne_of_role hp.2 hP.role_start (by decide))
  · rfl

namespace Coherent

variable (h : s.Coherent P)

include h

theorem not_mem_route (hv : v ∈ s.feasible) : v ∉ s.route := ((h.feasible v).mp hv).1

/-- As long as something is feasible, the end depot has not been visited. -/
theorem finish_not_mem (hP : P.WellFormed) (hv : v ∈ s.feasible) : P.finish ∉ s.route := fun hf =>
  h.not_mem_route hv ((h.last hf).2 v (((h.feasible v).mp hv).lt hP))

/-- The pickup of an open delivery has been visited. -/
theorem pickup_mem (hP : P.WellFormed) (hone : P.OneToOne) (hv : v ∈ s.feasible)
    (hp : P.deliveryOf a = some v) : a ∈ s.route := by
  obtain ⟨-, hpickup | ⟨p, hmem, hpv⟩ | ⟨hfinish, -⟩⟩ := (h.feasible v).mp hv
  · exact absurd rfl (Instance.ne_of_role (hP.delivers hp) hpickup (by decide))
  · exact hone a p v hp hpv ▸ hmem
  · exact absurd hfinish (Instance.ne_of_role (hP.delivers hp) hP.role_finish (by decide))

/-- A node is visited, open, or has to wait for another one. -/
theorem mem_of_role (hP : P.WellFormed) (ha : a < P.size) : a ∈ s.route ∨ a ∈ s.feasible ∨
    (∃ p ∈ s.feasible, P.deliveryOf p = some a) ∨ a = P.finish := by
  refine or_iff_not_imp_left.mpr fun hnot => ?_
  obtain rfl | rfl | hr | hr := hP.role_cases ha
  · exact absurd (List.mem_of_head? h.first) hnot
  · exact .inr (.inr rfl)
  · exact .inl ((h.feasible a).mpr ⟨hnot, .inl hr⟩)
  · obtain ⟨p, hp⟩ := hP.exists_pickup hr
    by_cases hmem : p ∈ s.route
    · exact .inl ((h.feasible a).mpr ⟨hnot, .inr (.inl ⟨p, hmem, hp⟩)⟩)
    · exact .inr (.inl ⟨p, (h.feasible p).mpr ⟨hmem, .inl (Instance.role_of_deliveryOf hp)⟩, hp⟩)

/-- The end depot opens when all other nodes have been visited. -/
theorem all_of_finish (hP : P.WellFormed) (hf : P.finish ∈ s.feasible) :
    ∀ a < P.size, a ≠ P.finish → a ∈ s.route := by
  obtain ⟨-, hr | ⟨p, -, hp⟩ | ⟨-, hall⟩⟩ := (h.feasible _).mp hf
  · exact absurd rfl (Instance.ne_of_role hr hP.role_finish (by decide))
  · exact absurd rfl (Instance.ne_of_role (hP.delivers hp) hP.role_finish (by decide))
  · exact hall

theorem eq_of_all_visited (hP : P.WellFormed) (hv : v ∈ s.feasible) (hne : v ≠ P.finish)
    (hall : ∀ a < P.size, a ≠ P.finish → a ∈ s.route ++ [v]) (hw : w ∈ s.feasible) : w = v := by
  have hwf : w ≠ P.finish := by
    rintro rfl
    exact h.not_mem_route hv (h.all_of_finish hP hw v (((h.feasible v).mp hv).lt hP) hne)
  have := hall w (((h.feasible w).mp hw).lt hP) hwf
  rw [List.mem_append, List.mem_singleton] at this
  exact this.resolve_left (h.not_mem_route hw)

theorem isDelivery_of_all_visited (hP : P.WellFormed) (hv : v ∈ s.feasible) (hne : v ≠ P.finish)
    (hall : ∀ a < P.size, a ≠ P.finish → a ∈ s.route ++ [v]) : P.isDelivery v = true := by
  obtain ⟨hnot, hr | ⟨p, -, hp⟩ | ⟨hf, -⟩⟩ := (h.feasible v).mp hv
  · -- the delivery of `v` would have been visited before `v`
    obtain ⟨d, hd⟩ := hP.exists_delivery hr
    have hdrole := hP.delivers hd
    have := hall d (hP.lt_of_role hdrole)
      (Instance.ne_of_role hdrole hP.role_finish (by decide))
    rw [List.mem_append, List.mem_singleton] at this
    obtain hmem | hdv := this
    · exact absurd (h.ordered v d hd hmem).1 hnot
    · exact absurd hdv (Instance.ne_of_role hdrole hr (by decide))
  · exact Instance.role_of_isDelivery.mpr (hP.delivers hp)
  · exact absurd hf hne

/-- Only the last delivery leaves nothing but the end depot: then all other nodes are visited. -/
theorem all_visited_iff (hP : P.WellFormed) (hv : v ∈ s.feasible) (hne : v ≠ P.finish) :
    (∀ a < P.size, a ≠ P.finish → a ∈ s.route ++ [v]) ↔
      s.feasible = [v] ∧ P.isDelivery v = true := by
  constructor
  · intro hall
    refine ⟨by_contra fun hmore => ?_, h.isDelivery_of_all_visited hP hv hne hall⟩
    obtain hnone | ⟨w, hw, hwv⟩ := (h.feasible_nodup.ne_singleton_iff v).mp hmore
    · rw [hnone] at hv
      cases hv
    · exact hwv (h.eq_of_all_visited hP hv hne hall hw)
  · rintro ⟨hone, hdelivery⟩ a ha haf
    rw [List.mem_append, List.mem_singleton]
    obtain hmem | hmem | ⟨p, hp, hpa⟩ | hmem := h.mem_of_role hP ha
    · exact .inl hmem
    · rw [hone, List.mem_singleton] at hmem
      exact .inr hmem
    · rw [hone, List.mem_singleton] at hp
      exact absurd hp (Instance.ne_of_role (Instance.role_of_deliveryOf hpa)
        (Instance.role_of_isDelivery.mp hdelivery) (by decide))
    · exact absurd hmem haf

/-- After the last delivery, just the end depot is open. -/
theorem open_go_of_last (hP : P.WellFormed) (hv : v ∈ s.feasible) (hlast : s.feasible = [v])
    (hdelivery : P.isDelivery v = true) : Open P (s.go P relaxation v) a ↔ a = P.finish := by
  have hvf : v ≠ P.finish :=
    Instance.ne_of_role (Instance.role_of_isDelivery.mp hdelivery) hP.role_finish (by decide)
  have hall := (h.all_visited_iff hP hv hvf).mpr ⟨hlast, hdelivery⟩
  rw [Open, route_go]
  constructor
  · rintro ⟨hnot, ho⟩
    refine by_contra fun haf => hnot (hall a ?_ haf)
    obtain hr | ⟨p, -, hp⟩ | ⟨hf, -⟩ := ho
    · exact hP.lt_of_role hr
    · exact hP.lt_of_role (hP.delivers hp)
    · exact absurd hf haf
  · rintro rfl
    refine ⟨fun hm => ?_, .inr (.inr ⟨rfl, hall⟩)⟩
    rw [List.mem_append, List.mem_singleton] at hm
    exact hm.elim (h.finish_not_mem hP hv) (Ne.symm hvf)

/-- Else the other open nodes stay open, and the delivery of a pickup becomes so. -/
theorem open_go_of_not_last (hP : P.WellFormed) (hv : v ∈ s.feasible)
    (hlast : ¬(s.feasible = [v] ∧ P.isDelivery v = true)) :
    Open P (s.go P relaxation v) a ↔ (a ∈ s.feasible ∧ a ≠ v) ∨ P.deliveryOf v = some a := by
  have hnot := h.not_mem_route hv
  have hvlt := ((h.feasible v).mp hv).lt hP
  rw [Open, route_go, List.mem_append, List.mem_singleton, not_or]
  constructor
  · rintro ⟨⟨ha, hav⟩, hr | ⟨p, hp, hpa⟩ | ⟨rfl, hall⟩⟩
    · exact .inl ⟨(h.feasible a).mpr ⟨ha, .inl hr⟩, hav⟩
    · obtain hp | hp := List.mem_append.mp hp
      · exact .inl ⟨(h.feasible a).mpr ⟨ha, .inr (.inl ⟨p, hp, hpa⟩)⟩, hav⟩
      · exact .inr (List.mem_singleton.mp hp ▸ hpa)
    · exact absurd ((h.all_visited_iff hP hv (Ne.symm hav)).mp hall) hlast
  · rintro (⟨ha, hav⟩ | hva)
    · obtain ⟨hmem, ho⟩ := (h.feasible a).mp ha
      refine ⟨⟨hmem, hav⟩, ?_⟩
      obtain hr | ⟨p, hp, hpa⟩ | ⟨rfl, hall⟩ := ho
      · exact .inl hr
      · exact .inr (.inl ⟨p, List.mem_append_left _ hp, hpa⟩)
      · exact absurd (hall v hvlt hav.symm) hnot
    · refine ⟨⟨fun hm => hnot (h.ordered v a hva hm).1, ?_⟩,
        .inr (.inl ⟨v, List.mem_append_right _ (List.mem_singleton.mpr rfl), hva⟩)⟩
      exact Instance.ne_of_role (hP.delivers hva) (Instance.role_of_deliveryOf hva) (by decide)

/-- The feasible nodes after a visit are the open ones, none of them twice. -/
theorem mem_feasibleAfter_iff (relaxation : Option Assignment) (hP : P.WellFormed)
    (hone : P.OneToOne) (hv : v ∈ s.feasible) :
    (s.feasibleAfter P v).Nodup ∧
      ∀ a, a ∈ s.feasibleAfter P v ↔ Open P (s.go P relaxation v) a := by
  rw [feasibleAfter_eq hv]
  split
  · rename_i hlast
    refine ⟨List.nodup_singleton _, fun a => ?_⟩
    rw [List.mem_singleton, h.open_go_of_last hP hv hlast.1 hlast.2]
  · rename_i hlast
    refine ⟨List.nodup_append.mpr ⟨h.feasible_nodup.filter _, ?_, fun a ha b hb hab => ?_⟩,
      fun a => ?_⟩
    · cases P.deliveryOf v with
      | none => exact List.nodup_nil
      | some d => exact List.nodup_singleton d
    · rw [hab] at ha
      exact h.not_mem_route hv (h.pickup_mem hP hone (List.mem_of_mem_filter ha)
        (Option.mem_toList.mp hb))
    · rw [List.mem_append, List.mem_filter, bne_iff_ne, Option.mem_toList,
        h.open_go_of_not_last hP hv hlast]

/-- **A visit of a feasible node keeps the route coherent.** -/
theorem go (hP : P.WellFormed) (hone : P.OneToOne) (hv : v ∈ s.feasible) :
    Coherent P (s.go P relaxation v) := by
  have hnot := h.not_mem_route hv
  obtain ⟨hnodup, hfeasible⟩ := h.mem_feasibleAfter_iff relaxation hP hone hv
  constructor
  · rw [route_go, List.head?_append, h.first]
    rfl
  · rw [route_go, List.nodup_append]
    refine ⟨h.nodup, List.nodup_singleton v, fun a ha b hb hab => hnot ?_⟩
    rw [← List.mem_singleton.mp hb, ← hab]
    exact ha
  · intro a ha
    rw [route_go, List.mem_append, List.mem_singleton] at ha
    obtain ha | rfl := ha
    · exact h.lt a ha
    · exact ((h.feasible a).mp hv).lt hP
  · intro p d hpd hd
    rw [route_go, List.mem_append, List.mem_singleton] at hd
    rw [route_go]
    obtain hd | rfl := hd
    · obtain ⟨hp, hlt⟩ := h.ordered p d hpd hd
      rw [List.idxOf_append_of_mem hp, List.idxOf_append_of_mem hd]
      exact ⟨List.mem_append_left _ hp, hlt⟩
    · have hp := h.pickup_mem hP hone hv hpd
      rw [List.idxOf_append_of_mem hp, List.idxOf_append_of_notMem hnot]
      have := List.idxOf_lt_length_iff.mpr hp
      exact ⟨List.mem_append_left _ hp, by omega⟩
  · intro hf
    rw [route_go, List.mem_append, List.mem_singleton] at hf
    obtain hf | rfl := hf
    · exact absurd hf (h.finish_not_mem hP hv)
    · refine ⟨rfl, fun a ha => ?_⟩
      rw [route_go, List.mem_append, List.mem_singleton]
      by_cases hfinish : a = P.finish
      · exact .inr hfinish
      · exact .inl (h.all_of_finish hP hv a ha hfinish)
  · exact hnodup
  · exact hfeasible
  · have hsplit : s.route ++ [v] = s.earlier.reverse ++ [s.node, v] := by simp [route]
    rw [route_go, hsplit, Instance.routeCost_concat, ← route_eq, ← h.cost]
    rfl

theorem length_le : s.route.length ≤ P.size := by
  have hsub : s.route.Subperm (List.range P.size) :=
    List.subperm_of_subset h.nodup fun a ha => List.mem_range.mpr (h.lt a ha)
  have := hsub.length_le
  rwa [List.length_range] at this

/-- The nodes of a partial route are nodes of the instance. -/
theorem inNodes (hP : P.WellFormed) : InNodes P s where
  node_lt := h.lt _ s.node_mem_route
  feasible_lt v hv := ((h.feasible v).mp hv).lt hP

/-- **No visit overflows** if the costs of the arcs are small. -/
theorem inRange {most : Int} (hmost : 0 ≤ most) (hP : P.Bounded most)
    (hroom : (P.size + 1) * most ≤ Cost.greatest) (hv : v < P.size) :
    Cost.InRange (s.cost + P.cost s.node v) := by
  have harcs : ∀ arc ∈ arcs s.route, -most ≤ P.cost arc.1 arc.2 ∧ P.cost arc.1 arc.2 ≤ most :=
    fun arc harc => hP _ _ (h.lt _ (mem_left_of_arc harc)) (h.lt _ (mem_right_of_arc harc))
  have hsum := Instance.sum_bounds harcs
  rw [← Instance.routeCost, ← h.cost] at hsum
  have hlen : (arcs s.route).length ≤ P.size := by
    have := h.length_le
    rw [arcs, List.length_zip]
    omega
  have hle : (arcs s.route).length * most ≤ P.size * most :=
    Int.mul_le_mul_of_nonneg_right (Int.ofNat_le.mpr hlen) hmost
  have hnext := hP s.node v (h.lt _ s.node_mem_route) hv
  rw [Int.add_mul, Int.one_mul] at hroom
  exact Assignment.Within.inRange_of_le (by omega) (by omega)

/-! ### Routes that continue a partial route -/

/-- **A route continues a partial route by a feasible node**, unless it is at its end. -/
theorem exists_next (hP : P.WellFormed) (hR : P.IsRoute R) (hpre : s.route <+: R)
    (hne : s.route.length < P.size) : ∃ v ∈ s.feasible, s.route ++ [v] <+: R := by
  obtain ⟨rest, rfl⟩ := hpre
  cases rest with
  | nil =>
    have := hR.length
    rw [List.append_nil] at this
    omega
  | cons v rest =>
    have hpos : ∀ {w}, (s.route ++ v :: rest).idxOf w < s.route.length → w ∈ s.route :=
      fun {w} hlt => by_contra fun hw => by
        rw [List.idxOf_append_of_notMem hw] at hlt
        omega
    have hidx : (s.route ++ v :: rest).idxOf v = s.route.length := by
      refine idxOf_of_getElem? hR.nodup ?_
      rw [List.getElem?_append_right (Nat.le_refl _), Nat.sub_self]
      rfl
    have hnot : v ∉ s.route := fun hv => by
      rw [List.idxOf_append_of_mem hv] at hidx
      have := List.idxOf_lt_length_iff.mpr hv
      omega
    refine ⟨v, (h.feasible v).mpr ⟨hnot, ?_⟩, ⟨rest, by simp⟩⟩
    have hv : v < P.size := hR.mem_iff.mp (by simp)
    obtain rfl | rfl | hr | hr := hP.role_cases hv
    · exact absurd (List.mem_of_head? h.first) hnot
    · refine .inr (.inr ⟨rfl, fun a ha hf => hpos ?_⟩)
      rw [hR.idxOf_finish] at hidx
      have hlt := hR.idxOf_lt ha
      have : (s.route ++ P.finish :: rest).idxOf a ≠ P.size - 1 := fun he =>
        hf (hR.idxOf_inj ha (he.trans hR.idxOf_finish.symm))
      omega
    · exact .inl hr
    · obtain ⟨p, hp⟩ := hP.exists_pickup hr
      refine .inr (.inl ⟨p, hpos ?_, hp⟩)
      have := hR.ordered p v hp
      omega

/-- One more visit on the way to a route costs no more than the route, where no arc costs less than
nothing. -/
theorem cost_next_le (hP : P.WellFormed) (hone : P.OneToOne)
    (hnonneg : ∀ a b, a < P.size → b < P.size → 0 ≤ P.cost a b) (hR : P.IsRoute R)
    (hv : v ∈ s.feasible) (hpre : s.route ++ [v] <+: R) :
    s.cost + P.cost s.node v ≤ P.routeCost R := by
  have hgo : Coherent P (s.go P none v) := h.go hP hone hv
  calc s.cost + P.cost s.node v = P.routeCost (s.go P none v).route := hgo.cost
    _ = P.routeCost (s.route ++ [v]) := by rw [route_go]
    _ ≤ P.routeCost R := hR.routeCost_prefix_le hnonneg hpre

/-- **Where nothing is feasible, the partial route is a route.** -/
theorem isRoute_of_solved (hP : P.WellFormed) (hs : s.feasible = []) : P.IsRoute s.route := by
  have hempty : ∀ {w}, w ∉ s.feasible := by simp [hs]
  have hothers : ∀ a < P.size, a ≠ P.finish → a ∈ s.route := by
    intro a ha hne
    obtain hmem | hmem | ⟨p, hp, -⟩ | hmem := h.mem_of_role hP ha
    · exact hmem
    · exact absurd hmem hempty
    · exact absurd hp hempty
    · exact absurd hmem hne
  have hfinish : P.finish ∈ s.route := by_contra fun hf =>
    hempty ((h.feasible P.finish).mpr ⟨hf, .inr (.inr ⟨rfl, hothers⟩)⟩)
  obtain ⟨hnode, hall⟩ := h.last hfinish
  refine ⟨h.first, ?_, ?_, fun p d hpd => (h.ordered p d hpd (hall d ?_)).2⟩
  · rw [route_eq, List.getLast?_concat, hnode]
  · refine (List.perm_ext_iff_of_nodup h.nodup List.nodup_range).mpr fun a => ?_
    rw [List.mem_range]
    exact ⟨h.lt a, hall a⟩
  · exact hP.lt_of_role (hP.delivers hpd)

/-- A partial route is at its end when it has all nodes. -/
theorem isSolved_iff (hP : P.WellFormed) : s.isSolved = true ↔ s.route.length = P.size := by
  rw [isSolved, List.isEmpty_iff]
  constructor
  · exact fun hs => (h.isRoute_of_solved hP hs).length
  · intro hlen
    refine List.eq_nil_iff_forall_not_mem.mpr fun v hv => h.not_mem_route hv ?_
    have hsub : s.route.Subperm (List.range P.size) :=
      List.subperm_of_subset h.nodup fun a ha => List.mem_range.mpr (h.lt a ha)
    have hperm := hsub.perm_of_length_le (by rw [List.length_range, hlen])
    exact hperm.mem_iff.mpr (List.mem_range.mpr (((h.feasible v).mp hv).lt hP))

end Coherent

/-- Expansions reach partial routes only, whatever their hints. -/
theorem Coherent.of_steps (hP : P.WellFormed) (hone : P.OneToOne) {width n : Nat}
    {relax narrate : Bool}
    (hs : Coherent P s) (h : Steps (domain P width relax narrate).Leads n s t) :
    Coherent P t :=
  h.invariant (P := fun _ t => Coherent P t) hs fun _ _ _ ht hst => by
    obtain ⟨dual, best, next, he, hu⟩ := hst
    obtain ⟨v, hv, rfl⟩ := mem_of_expand he hu
    exact ht.go hP hone hv

/-- The last step of a partial route is an arc of every route that continues it. -/
theorem mem_arcs_of_append {l : List Nat} {a b : Nat} (h : l ++ [a] ++ [b] <+: R) :
    (a, b) ∈ arcs R := by
  obtain ⟨rest, rfl⟩ := h
  exact mem_arcs_iff_getElem?.mpr ⟨l.length, by simp, by simp⟩

end Fathom.Routing.Visits
