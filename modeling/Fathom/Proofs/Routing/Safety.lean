import Fathom.Proofs.Routing.Agreement
import Fathom.Proofs.Routing.Equivalence
import Fathom.Proofs.Routing.FoldedLayers
import Fathom.Proofs.Routing.Robust

/-!
# Searches for a route never fault

A search for a route may fault where costs are added, where a relaxation is solved, where a table is
read and where a layer is merged. None of this happens to an instance that has been accepted, as
long as its costs leave room for sums, in either formulation and with any width. Nothing is asked of
its requests: there may be none, and two pickups may share a delivery.

Formulations read the tables of an instance without a check. `Visits.inside` and `Chains.inside` say
of a state that all its nodes have entries there, and a search is safe if it does not fault even
when it is made to wherever that is not so.

A partial route ends after one visit for each delivery and one for each pickup that is feasible or
still to come, and one for the end depot (`Visits.ahead`). With shared deliveries that is more than
there are nodes, for a delivery is visited once for each pickup.

Results:
* `Visits.robust`, `Chains.robust`: no state of a search faults, nor does one of its relaxations;
* `search_never_faults`: searches for a route return, at any time of their lives.
-/

namespace Fathom.Routing

open Assignment (Serves forbidden)

variable {P : Instance} {most : Int} {n : Nat}

/-! ## Instances -/

namespace Instance

/-- The tables of nodes have an entry for the node. -/
def hasNode (P : Instance) (a : Nat) : Bool :=
  decide (a < P.labels.size) && decide (a < P.roles.size) && decide (a < P.partners.size)

/-- The tables have entries for the two nodes and for the arc between them, so that the cost read
without a check is the one that a check would let through. -/
def hasArc (P : Instance) (a b : Nat) : Bool :=
  P.hasNode a && P.hasNode b && decide (Assignment.cell P.costs a b = .ok (P.cost a b))

/-- There is an entry for everything in the tables. -/
def Covered (P : Instance) : Prop := ∀ a b, a < P.size → b < P.size → P.hasArc a b = true

theorem Covered.hasNode (h : P.Covered) {a : Nat} (ha : a < P.size) : P.hasNode a = true := by
  have harc := h a a ha ha
  rw [hasArc, Bool.and_eq_true, Bool.and_eq_true] at harc
  exact harc.1.1

/-- **The tables of an accepted instance are complete.** -/
theorem covered_of_ofDraft {d : Draft} (htyped : d.Typed) (h : ofDraft d = .ok P) : P.Covered := by
  obtain ⟨roles, partners, haccepted⟩ := accepted_of_ofDraft h
  have hreads := haccepted.reads htyped.keys
  obtain ⟨keys, hpaired⟩ := hreads.paired
  have hnode : ∀ a < P.size, P.hasNode a = true := by
    intro a ha
    have hroles : P.roles.size = P.size := by
      rw [hreads.roles_eq, List.size_toArray, hreads.size, hreads.told.length_eq]
    have hpartners : P.partners.size = P.size := by
      rw [hreads.partners_eq, List.size_toArray, hreads.size, hpaired.length]
    rw [Instance.hasNode, Bool.and_eq_true, Bool.and_eq_true, hroles, hpartners]
    exact ⟨⟨decide_eq_true ha, decide_eq_true ha⟩, decide_eq_true ha⟩
  intro a b ha hb
  rw [hasArc, Bool.and_eq_true, Bool.and_eq_true]
  refine ⟨⟨hnode a ha, hnode b hb⟩, ?_⟩
  rw [hreads.size] at ha hb
  have hrow : a < d.edges.length := haccepted.edges.symm ▸ ha
  have hcost : b < d.edges[a].length := (haccepted.row _ (List.getElem_mem hrow)).symm ▸ hb
  simp [Assignment.cell, Instance.cost, haccepted.costs_eq, hrow, hcost]

/-- The pickups of an instance are fewer than its nodes. -/
theorem length_pickups_lt (hP : P.WellFormed) : P.pickups.length < P.size := by
  have hstart : P.isPickup P.start = false := Visits.isPickup_of_role hP.role_start
  have hlt := List.length_filter_lt_length_iff_exists.mpr
    ⟨P.start, List.mem_range.mpr hP.start_lt, Bool.eq_false_iff.mp hstart⟩
  rwa [List.length_range] at hlt

end Instance

/-- **With inference or without, the relaxation to start with is solved.** -/
theorem exists_solved (hbounded : P.Bounded most)
    (hroom : 4 * (P.size + 1) * max most forbidden ≤ Cost.greatest) (infer : Bool) :
    ∃ relaxation, (if infer then some <$> P.relaxation else .ok none) = .ok relaxation ∧
      Solved P (max most forbidden) relaxation := by
  cases infer with
  | false => exact ⟨none, rfl, fits_none⟩
  | true =>
    obtain ⟨a, ha, hserves, -⟩ := Assignment.exists_relaxation hbounded hroom
    exact ⟨some a, by rw [ha]; rfl, fits_some hserves⟩

/-! ## Sequences of visits -/

namespace Visits

variable {s t : Visits} {v : Nat} {relaxation : Option Assignment} {width : Nat}
  {relax narrate : Bool}

/-- All nodes of the state have entries in the tables, and so do the arcs to the feasible ones. -/
def inside (P : Instance) (s : Visits) : Bool :=
  s.route.all P.hasNode && s.feasible.all (P.hasArc s.node)

/-- The most visits that may follow. -/
def ahead (P : Instance) (s : Visits) : Nat :=
  if s.feasible = [] then 0
  else 2 * s.feasible.countP P.isPickup + s.feasible.countP P.isDelivery + 1

theorem ahead_le (P : Instance) (s : Visits) :
    s.ahead P ≤ 2 * s.feasible.countP P.isPickup + s.feasible.countP P.isDelivery + 1 := by
  unfold ahead
  split
  · exact Nat.zero_le _
  · exact Nat.le_refl _

theorem ahead_eq (hv : v ∈ s.feasible) :
    s.ahead P = 2 * s.feasible.countP P.isPickup + s.feasible.countP P.isDelivery + 1 :=
  if_neg (List.ne_nil_of_mem hv)

theorem countP_filter_ne_le {nodes : List Nat} (hv : v ∈ nodes) (p : Nat → Bool) :
    (nodes.filter (· != v)).countP p + (if p v then 1 else 0) ≤ nodes.countP p := by
  have hperm := (List.perm_cons_erase hv).filter (· != v)
  rw [List.filter_cons_of_neg (by simp)] at hperm
  rw [countP_eq_erase hv p, hperm.countP_eq]
  exact Nat.add_le_add_right List.filter_sublist.countP_le _

/-! ### What is known of a state -/

/-- What is known of a state after `n` visits, also in a relaxation. -/
structure Loose (P : Instance) (most : Int) (n : Nat) (s : Visits) : Prop where
  lt : ∀ a ∈ s.route, a < P.size
  feasible_lt : ∀ a ∈ s.feasible, a < P.size
  cost : -(n * most) ≤ s.cost ∧ s.cost ≤ n * most

/-- What is known of a state that a search comes to after `n` visits. -/
structure Running (P : Instance) (most : Int) (n : Nat) (s : Visits) : Prop where
  loose : Loose P most n s
  placeable : ∀ a ∈ s.feasible, Placeable P a
  /-- The end depot comes last. -/
  finish : P.finish ∈ s.feasible → s.feasible = [P.finish]
  relaxation : Solved P most s.relaxation
  ahead : n + s.ahead P ≤ 2 * P.size

theorem Loose.inNodes (h : Loose P most n s) : InNodes P s :=
  ⟨h.lt _ s.node_mem_route, h.feasible_lt⟩

theorem Loose.inside (h : Loose P most n s) (hcovered : P.Covered) : s.inside P = true := by
  rw [Visits.inside, Bool.and_eq_true, List.all_eq_true, List.all_eq_true]
  exact ⟨fun a ha => hcovered.hasNode (h.lt a ha),
    fun a ha => hcovered _ _ h.inNodes.node_lt (h.feasible_lt a ha)⟩

/-- One more arc adds to the cost what it may cost. -/
theorem Loose.cost_go (h : Loose P most n s) (hbounded : P.Bounded most) (hv : v ∈ s.feasible) :
    -((n + 1 : Nat) * most) ≤ s.cost + P.cost s.node v ∧
      s.cost + P.cost s.node v ≤ (n + 1 : Nat) * most := by
  obtain ⟨hlow, hhigh⟩ := h.cost
  have harc := hbounded s.node v h.inNodes.node_lt (h.feasible_lt v hv)
  rw [Int.natCast_succ, Int.add_mul, Int.one_mul]
  omega

theorem Loose.go (h : Loose P most n s) (hP : P.WellFormed) (hbounded : P.Bounded most)
    (hv : v ∈ s.feasible) : Loose P most (n + 1) (s.go P relaxation v) where
  lt a ha := by
    rw [route_go, List.mem_append, List.mem_singleton] at ha
    obtain ha | rfl := ha
    · exact h.lt a ha
    · exact h.feasible_lt a hv
  feasible_lt := (h.inNodes.go hP hv).feasible_lt
  cost := h.cost_go hbounded hv

/-- **An expansion answers**, also in a relaxation. -/
theorem Loose.expand_total (h : Loose P most n s) (hbounded : P.Bounded most)
    (hmost : forbidden ≤ most) (hroom : 4 * (P.size + 1) * most ≤ Cost.greatest)
    (hn : n ≤ 2 * P.size) {hint : Option Assignment} (hsolved : Solved P most hint)
    (best : Option Int) : ∃ next, expand P s hint best = .ok next := by
  have hzero : (0 : Int) ≤ most := Int.le_trans (by decide) hmost
  have hle : ((n + 1 : Nat) : Int) * most ≤ 4 * (P.size + 1) * most :=
    Int.mul_le_mul_of_nonneg_right (by omega) hzero
  refine Visits.expand_total fun v hv => ?_
  obtain ⟨hlow, hhigh⟩ := h.cost_go hbounded hv
  exact ⟨Assignment.Within.inRange_of_le (by omega) (by omega),
    hsolved.filtersAny_total h.inNodes.node_lt (h.feasible_lt v hv) best⟩

/-- **Folding keeps what is known.** -/
theorem Loose.fold {states : List Visits} (h : ∀ s ∈ states, Loose P most n s)
    (ht : t ∈ fold states width) : Loose P most n t := by
  obtain ⟨⟨s, hs, heq⟩, hfeasible⟩ := mem_fold ht
  refine ⟨?_, fun a ha => ?_, ?_⟩
  · rw [heq]
    exact (h s hs).lt
  · obtain ⟨y, hy, ha⟩ := hfeasible a ha
    exact (h y hy).feasible_lt a ha
  · rw [heq]
    exact (h s hs).cost

/-! ### The end of a route -/

/-- **Every visit uses up one of those ahead**: a pickup stands for two, of which the delivery is
left, a delivery for one, and the end depot for the last one. -/
theorem Running.ahead_go_lt (h : Running P most n s) (hP : P.WellFormed) (hv : v ∈ s.feasible)
    (relaxation : Option Assignment) : (s.go P relaxation v).ahead P < s.ahead P := by
  have hfeasible : (s.go P relaxation v).feasible = s.feasibleAfter P v := rfl
  have hle := ahead_le P (s.go P relaxation v)
  rw [ahead_eq hv]
  rw [hfeasible, feasibleAfter_eq hv] at hle
  have hpickups := countP_filter_ne_le hv P.isPickup
  have hdeliveries := countP_filter_ne_le hv P.isDelivery
  obtain hpickup | hdelivery | rfl := h.placeable v hv
  · have hrole := Instance.role_of_isPickup.mp hpickup
    obtain ⟨d, hd⟩ := hP.exists_delivery hrole
    have hnot : P.isDelivery v = false := isDelivery_of_role hrole
    have hdp : P.isPickup d = false := isPickup_of_role (hP.delivers hd)
    have hdd : P.isDelivery d = true := isDelivery_of_role (hP.delivers hd)
    rw [if_neg (by simp [hnot]), hd, Option.toList_some, List.countP_append, List.countP_append,
      List.countP_singleton, List.countP_singleton, hdp, hdd] at hle
    simp only [hpickup, hnot, if_true, Bool.false_eq_true, if_false] at hpickups hdeliveries hle
    omega
  · have hrole := Instance.role_of_isDelivery.mp hdelivery
    have hnot : P.isPickup v = false := isPickup_of_role hrole
    simp only [hdelivery, hnot, if_true, Bool.false_eq_true, if_false] at hpickups hdeliveries
    split at hle
    · -- after the last delivery, only the end depot is left
      have hfp : P.isPickup P.finish = false := isPickup_of_role hP.role_finish
      have hfd : P.isDelivery P.finish = false := isDelivery_of_role hP.role_finish
      rw [List.countP_singleton, List.countP_singleton, hfp, hfd] at hle
      simp only [Bool.false_eq_true, if_false] at hle
      omega
    · rw [Instance.deliveryOf, hnot, if_neg Bool.false_ne_true, Option.toList_none,
        List.append_nil] at hle
      omega
  · have hnil : (s.go P relaxation P.finish).feasible = [] := by
      have hp : P.isPickup P.finish = false := isPickup_of_role hP.role_finish
      have hd : P.isDelivery P.finish = false := isDelivery_of_role hP.role_finish
      rw [hfeasible, feasibleAfter_eq hv, if_neg (by simp [hd]), h.finish hv, Instance.deliveryOf,
        hp]
      simp
    rw [Visits.ahead, if_pos hnil]
    exact Nat.succ_pos _

/-- The end depot becomes feasible after all others only. -/
theorem Running.finish_go (h : Running P most n s) (hP : P.WellFormed) (hv : v ∈ s.feasible)
    (hf : P.finish ∈ s.feasibleAfter P v) : s.feasibleAfter P v = [P.finish] := by
  rw [feasibleAfter_eq hv] at hf ⊢
  split at hf
  · rename_i hlast
    rw [if_pos hlast]
  · rw [List.mem_append, List.mem_filter, bne_iff_ne, Option.mem_toList] at hf
    obtain ⟨hmem, hne⟩ | hd := hf
    · rw [h.finish hmem, List.mem_singleton] at hv
      exact absurd hv.symm hne
    · exact absurd rfl (Instance.ne_of_role (hP.delivers hd) hP.role_finish (by decide))

/-- **A search comes to states of this kind only.** -/
theorem Running.go (h : Running P most n s) (hP : P.WellFormed) (hbounded : P.Bounded most)
    (hv : v ∈ s.feasible) {hint : Option Assignment} (hsolved : Solved P most hint) :
    Running P most (n + 1) (s.go P (hint <|> s.relaxation) v) where
  loose := h.loose.go hP hbounded hv
  placeable _ ha := placeable_feasibleAfter hP h.placeable ha
  finish := h.finish_go hP hv
  relaxation := hsolved.orElse h.relaxation
  ahead := by
    have hlt := h.ahead_go_lt hP hv (hint <|> s.relaxation)
    have hle := h.ahead
    omega

theorem running_root (hP : P.WellFormed) (hsolved : Solved P most relaxation) :
    Running P most 0 ⟨P.start, [], P.pickups, 0, relaxation⟩ where
  loose := by
    refine ⟨fun a ha => ?_, fun a ha => List.mem_range.mp (List.mem_of_mem_filter ha), ?_⟩
    · rw [List.mem_singleton.mp ha]
      exact hP.start_lt
    · rw [Int.natCast_zero, Int.zero_mul]
      exact ⟨Int.le_refl 0, Int.le_refl 0⟩
  placeable a ha := .inl (List.mem_filter.mp ha).2
  finish hf := by
    have hp : P.isPickup P.finish = false := isPickup_of_role hP.role_finish
    rw [(List.mem_filter.mp hf).2] at hp
    cases hp
  relaxation := hsolved
  ahead := by
    have hle := ahead_le P ⟨P.start, [], P.pickups, 0, relaxation⟩
    have hnone : P.pickups.countP P.isDelivery = 0 := by
      refine List.countP_eq_zero.mpr fun a ha hd => ?_
      have hrole := Instance.role_of_isPickup.mp (List.mem_filter.mp ha).2
      rw [isDelivery_of_role hrole] at hd
      cases hd
    have hpickups : P.pickups.countP P.isPickup ≤ P.pickups.length := List.countP_le_length
    have hlt := Instance.length_pickups_lt hP
    dsimp only at hle
    omega

/-- **A search by visits is robust.** -/
theorem robust (hP : P.WellFormed) (hbounded : P.Bounded most) (hmost : forbidden ≤ most)
    (hroom : 4 * (P.size + 1) * most ≤ Cost.greatest) :
    Robust P most (domain P width relax narrate) (Running P most) (Loose P most) (2 * P.size) where
  dual := rfl
  tall := Nat.lt_add_of_pos_right (Nat.succ_pos 1)
  level_le h := Nat.le_trans (Nat.le_add_right ..) h.ahead
  loose_of_level h := h.loose
  infers {n s} h := by
    obtain ⟨hint, hhint, hsolved⟩ : ∃ hint, s.inference = .ok hint ∧ Solved P most hint :=
      fits_inference hmost h.loose.inNodes h.relaxation fun _ _ h => h.elim
    exact ⟨hint, width, bind_eq_ok_iff.mpr ⟨hint, hhint, rfl⟩, hsolved⟩
  relaxes {n s} h := by
    refine ⟨_, rfl, fun e he => ?_⟩
    split at he
    · cases he
      refine ⟨fun t ht => ?_, fun m depth states hstates =>
        ⟨_, shrink_fold states width depth, fun t ht => .fold hstates ht⟩⟩
      rw [List.mem_singleton.mp ht]
      exact h.loose
    · cases he
  restricts _ := ⟨width, rfl⟩
  expands {n s hint} best h hn hsolved := by
    obtain ⟨next, he⟩ := h.expand_total hbounded hmost hroom hn hsolved best
    refine ⟨next, he, fun t ht => ?_⟩
    obtain ⟨v, hv, rfl⟩ := mem_of_expand he ht
    exact h.go hP hbounded hv
  leads h hsolved he ht := by
    obtain ⟨v, hv, rfl⟩ := mem_of_expand he ht
    exact h.go hP hbounded hv hsolved

end Visits

/-! ## Choices of successors -/

namespace Chains

variable {s t : Chains} {order : List Nat} {a : Nat} {width : Nat} {narrate : Bool}

/-- All nodes of the chain that begins at the node have entries in the tables, and its last node has
no successor. -/
def traced (P : Instance) (s : Chains) (a : Nat) : Bool :=
  (s.chainFrom a).all P.hasNode &&
    (s.chainFrom a).getLast?.all fun b => (s.successor b).isNone

/-- All nodes of the state have links and entries in the tables, and so do the arcs that may be
chosen, the decision order has not been passed by, and all chains come to an end. -/
def inside (P : Instance) (order : List Nat) (s : Chains) : Bool :=
  s.size == P.size && decide (s.depth ≤ order.length) && order.all P.hasNode &&
    s.targets.all (fun target => order.all fun origin => P.hasArc origin target) &&
    (List.range s.size).all fun a => (s.link a).prev.isSome || s.traced P a

/-- What is known of a state with `n` successors chosen. -/
structure Running (P : Instance) (order : List Nat) (most : Int) (n : Nat) (s : Chains) :
    Prop where
  explored : Explored P order s
  depth : s.depth = n
  relaxation : Solved P most s.relaxation

/-- A chain is followed from its first node to its last one. -/
theorem Coherent.traced (h : s.Coherent P) (hcovered : P.Covered) (ha : a < P.size)
    (hfirst : (s.link a).prev = none) : s.traced P a = true := by
  obtain ⟨c, hac, hc⟩ := h.thread ha
  have hlt : ∀ b ∈ c, b < P.size := fun b hb =>
    h.lt_of_mem_chain ((hc.chain hac).mpr hb)
  have hlen : c.length ≤ P.size := by
    have hsub := List.subperm_of_subset hc.nodup fun b hb => List.mem_range.mpr (hlt b hb)
    simpa using hsub.length_le
  have hfollow : s.chainFrom a = c := follow_eq hc.linked (hc.head_eq h hac hfirst)
    (fun _ => hc.last) (by rw [h.size]; omega)
  rw [Chains.traced, hfollow, Bool.and_eq_true, List.all_eq_true]
  refine ⟨fun b hb => hcovered.hasNode (hlt b hb), ?_⟩
  cases hlast : c.getLast? with
  | none => rfl
  | some b => rw [Option.all_some, hc.last hlast, Option.isNone_none]

theorem Running.inside (h : Running P order most n s) (hP : P.WellFormed) (hd : Decides P order)
    (hcovered : P.Covered) : s.inside P order = true := by
  have hlen := hd.length hP
  have hdepth := h.explored.depth
  have hcoherent := h.explored.coherent
  have horder : ∀ a ∈ order, a < P.size := fun a ha => (hd.mem_iff.mp ha).1
  simp only [Chains.inside, Bool.and_eq_true, List.all_eq_true, beq_iff_eq, decide_eq_true_eq,
    Bool.or_eq_true]
  refine ⟨⟨⟨⟨hcoherent.size, by omega⟩, fun a ha => hcovered.hasNode (horder a ha)⟩,
    fun b hb a ha => hcovered a b (horder a ha) (hcoherent.lt_of_mem_targets hb)⟩, fun a ha => ?_⟩
  rw [List.mem_range, hcoherent.size] at ha
  cases hprev : (s.link a).prev with
  | some b => exact .inl rfl
  | none => exact .inr (hcoherent.traced hcovered ha hprev)

/-- **A search comes to states of this kind only.** -/
theorem Running.step (h : Running P order most n s) (hd : Decides P order)
    {hint : Option Assignment} {best : Option Int} {next : List Chains}
    (hsolved : Solved P most hint) (he : expand P order s hint best = .ok next) (ht : t ∈ next) :
    Running P order most (n + 1) t := by
  obtain ⟨o, b, ho, hb, rfl⟩ := mem_of_expand he ht
  exact ⟨h.explored.tie ho hd hb, by rw [tie_depth, h.depth], hsolved.orElse h.relaxation⟩

/-- **A search by successors is robust.** -/
theorem robust (hP : P.WellFormed) (hd : Decides P order) (hbounded : P.Bounded most)
    (hmost : forbidden ≤ most) (hroom : (P.size + 1) * most ≤ Cost.greatest) :
    Robust P most (domain P order width narrate) (Running P order most) (Running P order most)
      order.length where
  dual := rfl
  tall := by
    have hheight : (domain P order width narrate).height = P.size + 1 := rfl
    have hlen := hd.length hP
    omega
  level_le h := by
    have hdepth := h.explored.depth
    have hlen := hd.length hP
    have hn := h.depth
    omega
  loose_of_level h := h
  infers {n s} h := by
    obtain ⟨hint, hhint, hsolved⟩ : ∃ hint, s.inference order = .ok hint ∧ Solved P most hint :=
      fits_inference hmost hP hd h.explored h.relaxation fun _ _ h => h.elim
    exact ⟨hint, width, bind_eq_ok_iff.mpr ⟨hint, hhint, rfl⟩, hsolved⟩
  relaxes _ := ⟨none, rfl, nofun⟩
  restricts _ := ⟨width, rfl⟩
  expands {n s hint} best h _ hsolved := by
    obtain ⟨next, he⟩ := h.explored.expand_total hd hbounded hmost hroom hsolved best
    exact ⟨next, he, fun t ht => h.step hd hsolved he ht⟩
  leads h hsolved he ht := h.step hd hsolved he ht

end Chains

/-! ## Searches -/

/-- **No search for a route faults.** If an instance has been accepted and its costs leave room for
sums, then in both formulations, with any decision order and width, with inference and relaxation or
without, the root is built, and every call of `minimize` returns, however the search is tuned
between the calls and whatever the clock shows. No table is read where it has no entry. -/
theorem search_never_faults {d : Draft} (htyped : d.Typed) (hP : Instance.ofDraft d = .ok P)
    (hbounded : P.Bounded most)
    (hroom : 4 * (P.size + 1) * max most forbidden ≤ Cost.greatest) (infer narrate : Bool)
    (width : Nat) :
    P.Covered ∧
    (∀ relax, ∃ r, Visits.root P infer = .ok r ∧
      (Visits.domain P width relax narrate).Safe (Visits.inside P) r) ∧
    ∀ rule, ∃ r, Chains.root P infer = .ok r ∧
      (Chains.domain P (Chains.decisionOrder P rule) width narrate).Safe
        (Chains.inside P (Chains.decisionOrder P rule)) r := by
  have hwf := Instance.wellFormed_of_ofDraft htyped hP
  have hcovered := Instance.covered_of_ofDraft htyped hP
  have hmost : forbidden ≤ max most forbidden := Int.le_max_right ..
  have hbounded' : P.Bounded (max most forbidden) := hbounded.mono (Int.le_max_left ..)
  obtain ⟨relaxation, hrelaxation, hsolved⟩ := exists_solved hbounded hroom infer
  refine ⟨hcovered, fun relax => ?_, fun rule => ?_⟩
  · refine ⟨_, Visits.root_eq_ok_iff.mpr ⟨_, hrelaxation, rfl⟩, ?_⟩
    exact (Visits.robust hwf hbounded' hmost hroom).safe (fun h => h.inside hcovered)
      (Visits.running_root hwf hsolved)
  · have hd := Chains.decides_decisionOrder P rule
    refine ⟨_, Chains.root_eq_ok_iff.mpr ⟨_, hrelaxation, rfl⟩, ?_⟩
    exact (Chains.robust hwf hd hbounded' hmost (Assignment.room_for_routes hroom)).safe
      (fun h => h.inside hwf hd hcovered) ⟨Chains.explored_bare hwf _, rfl, hsolved⟩

/-- No search faults where two pickups share a delivery. -/
theorem shared_never_faults :
    let d := Instance.sharedDraft [("+1", "-1"), ("+2", "-1")]
    d.Typed ∧ Instance.ofDraft d = .ok Instance.shared ∧
    Instance.shared.Bounded 1 ∧
    4 * (Instance.shared.size + 1) * max 1 forbidden ≤ Cost.greatest ∧
    Instance.shared.Covered ∧ ∃ r, Visits.root Instance.shared true = .ok r ∧
      (Visits.domain Instance.shared 2 true false).Safe (Visits.inside Instance.shared) r := by
  have hbounded : Instance.shared.Bounded 1 := fun a b ha hb => by
    have := Instance.cost_shared a b ha hb
    omega
  have hroom : 4 * (Instance.shared.size + 1) * max 1 forbidden ≤ Cost.greatest := by decide
  obtain ⟨hcovered, hvisits, -⟩ :=
    search_never_faults Instance.typed_shared Instance.ofDraft_shared hbounded hroom true false 2
  exact ⟨Instance.typed_shared, Instance.ofDraft_shared, hbounded, hroom, hcovered, hvisits true⟩

end Fathom.Routing
