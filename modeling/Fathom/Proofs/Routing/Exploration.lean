import Fathom.Proofs.Lockstep
import Fathom.Proofs.Routing.Matching
import Fathom.Proofs.Routing.Completion

/-!
# States reached by choosing successors

`Chains.expand` gives the next node of the decision order each of its candidates as the successor,
unless the incumbent or the relaxation rules it out (`choose_eq_ok_iff`). `Explored` collects what
holds of every state that expansions reach, whatever their hints: the state is coherent, what it
knows is true, and the nodes with a successor are those that the decision order has come past.

Results:
* `Explored.step`, `Explored.of_steps`: expansions reach explored states only;
* `Explored.isRoute_of_solved`: a solved state is a route, and its cost that of the route;
* `Explored.cost_le`: any other state costs no more than the routes that have its arcs.
-/

namespace Fathom.Routing.Chains

variable {P : Instance} {order : List Nat} {s s' u : Chains} {a b o t : Nat} {c R : List Nat}
  {relaxation dual : Option Assignment} {best : Option Int} {next : List Chains}

/-! ## The decision order -/

/-- The list has every node but the end depot once. -/
def Decides (P : Instance) (order : List Nat) : Prop :=
  order.Perm (P.nodes.filter (· != P.finish))

/-- **Every rule decides** on all nodes but the end depot. -/
theorem decides_decisionOrder (P : Instance) (rule : DecisionRule) :
    Decides P (decisionOrder P rule) := by
  cases rule with
  | input => exact List.Perm.refl _
  | greedy => exact List.mergeSort_perm _ _
  | regret => exact List.mergeSort_perm _ _

namespace Decides

variable (h : Decides P order)

include h

theorem nodup : order.Nodup := h.nodup_iff.mpr (List.nodup_range.filter _)

theorem mem_iff : a ∈ order ↔ a < P.size ∧ a ≠ P.finish := by
  rw [List.Perm.mem_iff h, List.mem_filter, Instance.nodes, List.mem_range, bne_iff_ne]

theorem length (hP : P.WellFormed) : order.length + 1 = P.size := by
  have hfinish : P.finish ∈ P.nodes := List.mem_range.mpr hP.finish_lt
  have herase : P.nodes.filter (· != P.finish) = P.nodes.erase P.finish :=
    (List.nodup_range.erase_eq_filter P.finish).symm
  rw [h.length_eq, herase, List.length_erase_of_mem hfinish, Instance.nodes, List.length_range]
  have := hP.finish_lt
  omega

end Decides

/-! ## Choices and expansions -/

theorem affordable_total {arc : Int} (hrange : Cost.InRange (s.cost + arc)) :
    ∃ verdict, s.affordable best arc = .ok verdict := by
  cases best with
  | none => exact ⟨true, rfl⟩
  | some b =>
    exact ⟨_, bind_eq_ok_iff.mpr ⟨s.cost + arc, Cost.add_eq_ok_iff.mpr ⟨hrange, rfl⟩, rfl⟩⟩

theorem affordable_ne_false {arc : Int} (hbeats : Cost.beats best (s.cost + arc) = true) :
    s.affordable best arc ≠ .ok false := by
  cases best with
  | none => exact nofun
  | some b =>
    intro h
    obtain ⟨cost, hcost, h⟩ := bind_eq_ok_iff.mp h
    obtain ⟨-, rfl⟩ := Cost.add_eq_ok_iff.mp hcost
    rw [Cost.beats_some] at hbeats
    rw [hbeats] at h
    cases h

/-- **What becomes of a choice**: it is ruled out by the incumbent or by the relaxation, or made. -/
theorem choose_eq_ok_iff {r : Option Chains} : s.choose P dual best o t = .ok r ↔
    (s.affordable best (P.cost o t) = .ok false ∧ r = none) ∨
    (s.affordable best (P.cost o t) = .ok true ∧
      Assignment.filtersAny dual o t best = .ok true ∧ r = none) ∨
    (s.affordable best (P.cost o t) = .ok true ∧ Assignment.filtersAny dual o t best = .ok false ∧
      Cost.InRange (s.cost + P.cost o t) ∧ r = some (s.tie P (dual <|> s.relaxation) o t)) := by
  rw [choose]
  cases haffordable : s.affordable best (P.cost o t) with
  | error e => exact ⟨fun h => (by cases h), fun h => (by simp at h)⟩
  | ok affordable =>
    cases affordable with
    | false =>
      refine ⟨fun h => .inl ⟨rfl, (Except.ok.inj h).symm⟩, fun h => ?_⟩
      obtain ⟨-, rfl⟩ | ⟨h, -⟩ | ⟨h, -⟩ := h
      · rfl
      · cases h
      · cases h
    | true =>
      cases hfilters : Assignment.filtersAny dual o t best with
      | error e => exact ⟨fun h => (by cases h), fun h => (by simp at h)⟩
      | ok filters =>
        cases filters with
        | true =>
          refine ⟨fun h => .inr (.inl ⟨rfl, rfl, (Except.ok.inj h).symm⟩), fun h => ?_⟩
          obtain ⟨h, -⟩ | ⟨-, -, rfl⟩ | ⟨-, h, -⟩ := h
          · cases h
          · rfl
          · cases h
        | false =>
          refine (map_eq_ok_iff (x := s.assign P (dual <|> s.relaxation) o t)).trans ?_
          constructor
          · rintro ⟨s', hs', rfl⟩
            obtain ⟨hrange, rfl⟩ := assign_eq_ok_iff.mp hs'
            exact .inr (.inr ⟨rfl, rfl, hrange, rfl⟩)
          · rintro (⟨h, -⟩ | ⟨-, h, -⟩ | ⟨-, -, hrange, rfl⟩)
            · cases h
            · cases h
            · exact ⟨_, assign_eq_ok_iff.mpr ⟨hrange, rfl⟩, rfl⟩

theorem expand_of_getElem? (ho : order[s.depth]? = some o) : expand P order s dual best =
    (do
      let chosen ← (s.candidates o).mapM (s.choose P dual best o)
      pure (chosen.filterMap id)) := by
  unfold expand
  split
  · rename_i hnone
    rw [ho] at hnone
    cases hnone
  · rename_i o' ho'
    rw [ho, Option.some.injEq] at ho'
    rw [ho']

/-- Past its end, the decision order asks for nothing. -/
theorem expand_of_le (hd : order.length ≤ s.depth) : expand P order s dual best = .ok [] := by
  unfold expand
  split
  · rfl
  · rename_i o ho
    rw [List.getElem?_eq_none hd] at ho
    cases ho

/-- **The choices that are made** are some of the candidates. -/
theorem mem_of_expand (h : expand P order s dual best = .ok next) (hu : u ∈ next) :
    ∃ o t, order[s.depth]? = some o ∧ t ∈ s.candidates o ∧
      u = s.tie P (dual <|> s.relaxation) o t := by
  cases ho : order[s.depth]? with
  | none =>
    rw [expand_of_le (List.getElem?_eq_none_iff.mp ho)] at h
    cases h
    cases hu
  | some o =>
    rw [expand_of_getElem? ho] at h
    obtain ⟨chosen, hchosen, h⟩ := bind_eq_ok_iff.mp h
    cases h
    obtain ⟨r, hr, hru⟩ := List.mem_filterMap.mp hu
    obtain ⟨t, ht, hchoose⟩ := forall₂_mem_right (mapM_eq_ok_iff.mp hchosen) hr
    obtain ⟨-, rfl⟩ | ⟨-, -, rfl⟩ | ⟨-, -, -, rfl⟩ := choose_eq_ok_iff.mp hchoose
    · cases hru
    · cases hru
    · exact ⟨o, t, rfl, ht, (Option.some.inj hru).symm⟩

/-- A choice that is not made is ruled out by the incumbent or by the relaxation. -/
theorem mem_expand (h : expand P order s dual best = .ok next) (ho : order[s.depth]? = some o)
    (ht : t ∈ s.candidates o) (hbeats : Cost.beats best (s.cost + P.cost o t) = true)
    (hfilters : Assignment.filtersAny dual o t best ≠ .ok true) :
    s.tie P (dual <|> s.relaxation) o t ∈ next := by
  rw [expand_of_getElem? ho] at h
  obtain ⟨chosen, hchosen, h⟩ := bind_eq_ok_iff.mp h
  cases h
  obtain ⟨r, hr, hchoose⟩ := forall₂_mem_left (mapM_eq_ok_iff.mp hchosen) ht
  obtain ⟨h, -⟩ | ⟨-, h, -⟩ | ⟨-, -, -, rfl⟩ := choose_eq_ok_iff.mp hchoose
  · exact absurd h (affordable_ne_false hbeats)
  · exact absurd h hfilters
  · exact List.mem_filterMap.mpr ⟨_, hr, rfl⟩

/-- **A choice answers** if neither its cost nor the relaxation overflows. -/
theorem choose_total (hrange : Cost.InRange (s.cost + P.cost o t))
    (hfilters : ∃ verdict, Assignment.filtersAny dual o t best = .ok verdict) :
    ∃ r, s.choose P dual best o t = .ok r := by
  obtain ⟨affordable, ha⟩ : ∃ verdict, s.affordable best (P.cost o t) = .ok verdict :=
    affordable_total hrange
  obtain ⟨verdict, hv⟩ := hfilters
  cases affordable with
  | false => exact ⟨_, choose_eq_ok_iff.mpr (.inl ⟨ha, rfl⟩)⟩
  | true =>
    cases verdict with
    | true => exact ⟨_, choose_eq_ok_iff.mpr (.inr (.inl ⟨ha, hv, rfl⟩))⟩
    | false => exact ⟨_, choose_eq_ok_iff.mpr (.inr (.inr ⟨ha, hv, hrange, rfl⟩))⟩

/-- **An expansion answers** if each of its choices does. -/
theorem expand_total (h : ∀ o t, order[s.depth]? = some o → t ∈ s.candidates o →
    ∃ r, s.choose P dual best o t = .ok r) : ∃ next, expand P order s dual best = .ok next := by
  cases ho : order[s.depth]? with
  | none => exact ⟨[], expand_of_le (List.getElem?_eq_none_iff.mp ho)⟩
  | some o =>
    obtain ⟨chosen, hchosen⟩ := mapM_total fun t ht => h o t ho ht
    exact ⟨_, (expand_of_getElem? ho).trans (bind_eq_ok_iff.mpr ⟨chosen, hchosen, rfl⟩)⟩

/-! ## Threads -/

/-- Following the successors from the first node of a thread goes along the thread. -/
theorem follow_eq (hc : c.IsChain fun a b => s.successor a = some b) (ha : c.head? = some a)
    (hlast : ∀ b, c.getLast? = some b → s.successor b = none) {fuel : Nat}
    (hfuel : c.length ≤ fuel + 1) : s.follow fuel a = c := by
  induction fuel generalizing c a with
  | zero =>
    match c, ha, hfuel with
    | [_], rfl, _ => rfl
  | succ fuel ih =>
    match c, ha with
    | [_], rfl => simp [follow, hlast a rfl]
    | a :: b :: c, rfl =>
      rw [List.isChain_cons_cons] at hc
      have hrest := ih hc.2 rfl (fun x hx => hlast x (by rwa [List.getLast?_cons_cons]))
        (Nat.le_of_succ_le_succ hfuel)
      simp [follow, hc.1, hrest]

/-- The arcs of a thread cost what its nodes have been charged for. -/
theorem routeCost_eq (hc : c.IsChain fun a b => s.successor a = some b)
    (hlast : ∀ b, c.getLast? = some b → s.successor b = none) :
    P.routeCost c = (c.map (s.arcCost P)).sum := by
  induction c with
  | nil => rfl
  | cons a c ih =>
    cases c with
    | nil => simp [Instance.routeCost, arcCost, hlast a rfl]
    | cons b c =>
      rw [List.isChain_cons_cons] at hc
      have hrest := ih hc.2 fun x hx => hlast x (by rwa [List.getLast?_cons_cons])
      rw [Instance.routeCost] at hrest ⊢
      rw [arcs_cons_cons, List.map_cons, List.sum_cons, hrest, List.map_cons (a := a),
        List.sum_cons, arcCost, hc.1]
      rfl

/-! ## Explored states -/

/-- What holds of every state that expansions reach. -/
structure Explored (P : Instance) (order : List Nat) (s : Chains) : Prop where
  coherent : s.Coherent P
  sound : Sound P s
  /-- The successors have been chosen in the decision order. -/
  chosen : ∀ a, s.successor a = none ↔ a ∉ order.take s.depth
  depth : s.targets.length + s.depth + 1 = P.size

theorem explored_bare (hP : P.WellFormed) (relaxation : Option Assignment) :
    Explored P order (bare P relaxation) where
  coherent := coherent_bare hP relaxation
  sound := sound_bare
  chosen a := by
    rw [successor_bare]
    simp [bare]
  depth := by
    have hstart : P.start ∈ P.nodes := List.mem_range.mpr hP.start_lt
    have herase : P.nodes.filter (· != P.start) = P.nodes.erase P.start :=
      (List.nodup_range.erase_eq_filter P.start).symm
    have hlen := List.length_erase_of_mem hstart
    rw [Instance.nodes, List.length_range] at hlen
    have := hP.start_lt
    have hlen' : (bare P relaxation).targets.length = P.size - 1 := by
      rw [← hlen, ← Instance.nodes, ← herase]
      rfl
    have hzero : (bare P relaxation).depth = 0 := rfl
    omega

namespace Explored

variable (h : Explored P order s) (ho : order[s.depth]? = some o)

include h

/-- An explored state is solved when the decision order is exhausted. -/
theorem isSolved_iff_depth (hP : P.WellFormed) (hd : Decides P order) :
    s.isSolved = true ↔ s.depth = order.length := by
  have hdepth := h.depth
  have hlen := hd.length hP
  rw [isSolved, List.isEmpty_iff, ← List.length_eq_zero_iff]
  omega

include ho

theorem origin_free (hd : Decides P order) : s.successor o = none := by
  rw [h.chosen, List.mem_take_iff_getElem]
  rintro ⟨i, hi, rfl⟩
  obtain ⟨hlt, hio⟩ := List.getElem?_eq_some_iff.mp ho
  have := (hd.nodup.getElem_inj_iff).mp hio
  omega

/-- A candidate for the next node of the decision order may be joined to it. -/
theorem joins (hd : Decides P order) (ht : t ∈ s.candidates o) : Joins P s o t where
  coherent := h.coherent
  lt := (hd.mem_iff.mp (List.mem_of_getElem? ho)).1
  free := h.origin_free ho hd
  candidate := ht

/-- The successor that a route gives to the next node is a candidate, if the route keeps the
state. -/
theorem exists_candidate_arc (hP : P.WellFormed) (hd : Decides P order) (hR : P.IsRoute R)
    (hkept : s.KeptBy R) : ∃ t ∈ s.candidates o, (o, t) ∈ arcs R := by
  obtain ⟨hlt, hne⟩ := hd.mem_iff.mp (List.mem_of_getElem? ho)
  obtain ⟨t, hot⟩ := hR.exists_arc_from hlt hne
  exact ⟨t, (mem_candidates_iff h.coherent h.sound hP hlt (h.origin_free ho hd)).mpr
    ⟨R, hR, hkept, hot⟩, hot⟩

/-- **A choice leads to an explored state.** -/
theorem tie (hd : Decides P order) (ht : t ∈ s.candidates o) :
    Explored P order (s.tie P relaxation o t) := by
  have hjoin := h.joins ho hd ht
  refine ⟨hjoin.coherent_tie, h.sound.tie hjoin, fun a => ?_, ?_⟩
  · rw [hjoin.successor_tie, tie_depth, List.take_add_one, ho, Option.toList_some, List.mem_append,
      List.mem_singleton, not_or, ← h.chosen]
    split
    · rename_i hao
      simp [hao]
    · rename_i hao
      exact (and_iff_left hao).symm
  · have hdepth := h.depth
    have hlen := List.length_erase_of_mem hjoin.mem_targets
    have hpos := List.length_pos_of_mem hjoin.mem_targets
    rw [h.coherent.targets_nodup.erase_eq_filter] at hlen
    rw [tie_targets, tie_depth, hlen]
    omega

omit ho

/-- **Expansions reach explored states only**, whatever their hints. -/
theorem step (hd : Decides P order) (he : expand P order s dual best = .ok next) (hu : u ∈ next) :
    Explored P order u := by
  obtain ⟨o, t, ho, ht, rfl⟩ := mem_of_expand he hu
  exact h.tie ho hd ht

/-! ### Solved states -/

/-- **The thread of the start is what `route` tells**, if all nodes are on it. -/
theorem route_eq (hP : P.WellFormed) (hc : Thread P s c) (hall : ∀ a, a ∈ c ↔ a < P.size) :
    s.route P = c := by
  have hroute := hc.isRoute hP h.coherent hall
  refine follow_eq hc.linked hroute.first (fun _ => hc.last) ?_
  rw [h.coherent.size, hroute.length]
  exact Nat.le_succ _

/-- **A solved state is a route**, and its cost is that of the route. -/
theorem isRoute_of_solved (hP : P.WellFormed) (hsolved : s.isSolved = true) :
    P.IsRoute (s.route P) ∧ s.cost = P.routeCost (s.route P) ∧ s.KeptBy (s.route P) := by
  obtain ⟨c, -, hc, hall⟩ := h.coherent.thread_all hP (List.isEmpty_iff.mp hsolved)
  have hroute := hc.isRoute hP h.coherent hall
  rw [h.route_eq hP hc hall]
  refine ⟨hroute, ?_, fun a b hab =>
    hc.mem_arcs ((hall a).mpr (h.coherent.lt_of_successor hab)) hab⟩
  rw [h.coherent.cost, routeCost_eq hc.linked fun _ => hc.last]
  exact ((hroute.visits.map _).sum_eq).symm

/-! ### Costs -/

/-- **The cost of an explored state is small** if the costs of the arcs are. -/
theorem cost_bounds {most : Int} (hmost : 0 ≤ most) (hP : P.Bounded most) :
    -(P.size * most) ≤ s.cost ∧ s.cost ≤ P.size * most := by
  have harc : ∀ a ∈ P.nodes, -most ≤ s.arcCost P a ∧ s.arcCost P a ≤ most := by
    intro a ha
    unfold arcCost
    cases hab : s.successor a with
    | none => exact ⟨Int.neg_nonpos_of_nonneg hmost, hmost⟩
    | some b => exact hP a b (List.mem_range.mp ha) (h.coherent.successor_lt hab)
  have hsum := Instance.sum_bounds harc
  rwa [Instance.nodes, List.length_range, ← Instance.nodes, ← h.coherent.cost] at hsum

/-- **The arcs chosen cost no more than a route that has them all**, where no arc costs less than
nothing. -/
theorem cost_le (hnonneg : ∀ a b, a < P.size → b < P.size → 0 ≤ P.cost a b) (hR : P.IsRoute R)
    (hkept : s.KeptBy R) : s.cost ≤ P.routeCost R := by
  have hlast : s.arcCost P P.finish = 0 := by
    unfold arcCost
    cases hb : s.successor P.finish with
    | none => rfl
    | some b => exact absurd rfl (hR.arc_from_ne_finish (hkept _ _ hb))
  have hle : ∀ a b, (a, b) ∈ arcs R → s.arcCost P a ≤ P.cost a b := by
    intro a b hab
    have ha := hR.mem_iff.mp (mem_left_of_arc hab)
    have hb := hR.mem_iff.mp (mem_right_of_arc hab)
    unfold arcCost
    cases hsucc : s.successor a with
    | none => exact hnonneg a b ha hb
    | some b' =>
      rw [arc_right_unique hR.nodup hab (hkept a b' hsucc)]
      exact Int.le_refl _
  have hsplit : R = R.dropLast ++ [P.finish] := (List.dropLast_append_getLast? _ hR.last).symm
  calc s.cost = (P.nodes.map (s.arcCost P)).sum := h.coherent.cost
    _ = (R.map (s.arcCost P)).sum := ((hR.visits.map _).sum_eq).symm
    _ = (R.dropLast.map (s.arcCost P)).sum := by
      rw [hsplit, List.map_append, List.sum_append, List.dropLast_concat]
      simp [hlast]
    _ = ((arcs R).map fun arc => s.arcCost P arc.1).sum := by
      rw [← map_fst_arcs, List.map_map]
      rfl
    _ ≤ P.routeCost R := List.sum_le_sum fun arc harc => hle arc.1 arc.2 harc

/-- **No choice overflows** if the costs of the arcs are small. -/
theorem inRange {most : Int} (hmost : 0 ≤ most) (hP : P.Bounded most)
    (hroom : (P.size + 1) * most ≤ Cost.greatest) {a b : Nat} (ha : a < P.size) (hb : b < P.size) :
    Cost.InRange (s.cost + P.cost a b) := by
  have hcost := h.cost_bounds hmost hP
  have harc := hP a b ha hb
  rw [Int.add_mul, Int.one_mul] at hroom
  exact Assignment.Within.inRange_of_le (by omega) (by omega)

/-- **Without hints, an expansion answers** if the costs of the arcs are small. -/
theorem answers (hd : Decides P order) {most : Int} (hmost : 0 ≤ most) (hP : P.Bounded most)
    (hroom : (P.size + 1) * most ≤ Cost.greatest) :
    ∃ next, expand P order s none none = .ok next := by
  refine expand_total fun o t ho ht => ?_
  have hjoin := h.joins ho hd ht
  exact choose_total (h.inRange hmost hP hroom hjoin.lt hjoin.target_lt) ⟨false, rfl⟩

end Explored

/-! ## The search tree -/

/-- The root has no arcs, and the relaxation of the instance if that is asked for. -/
theorem root_eq_ok_iff {infer : Bool} {r : Chains} : root P infer = .ok r ↔
    ∃ relaxation, (if infer then some <$> P.relaxation else .ok none) = .ok relaxation ∧
      bare P relaxation = r :=
  optional_eq_ok_iff

/-- **Expansions with any hints reach explored states only.** -/
theorem Explored.of_steps (hd : Decides P order) {width n : Nat} {narrate : Bool}
    (hs : Explored P order s)
    (h : Steps (domain P order width narrate).Leads n s u) : Explored P order u :=
  h.invariant (P := fun _ u => Explored P order u) hs fun _ _ _ ht htu => by
    obtain ⟨dual, best, next, he, hu⟩ := htu
    exact ht.step hd he hu

end Fathom.Routing.Chains
