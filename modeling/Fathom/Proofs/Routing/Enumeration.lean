import Fathom.Proofs.Paths
import Fathom.Proofs.Routing.Decoding
import Fathom.Proofs.Routing.Exploration

/-!
# The routes a search by successors comes to

Without hints, the tree of expansions below the root has exactly one path for each route. The path
to a route is found by choosing its arcs in the decision order. It is the only one, since a choice
is never taken back: every state on a path that ends in the route is kept by it, and a node has only
one successor in a route (`guides`).

Results:
* `explores_routes`: candidates are exact, solved states are routes, no state is a dead end, and
  each route is reached in exactly one way.
-/

namespace Fathom.Routing.Chains

variable {P : Instance} {order : List Nat} {s t u : Chains} {a b o : Nat} {R : List Nat}
  {dual : Option Assignment} {best : Option Int} {next : List Chains}

/-! ## Expansions without hints -/

/-- An expansion makes its choices in the order of the candidates. -/
theorem expand_sublist (ho : order[s.depth]? = some o) (h : expand P order s dual best = .ok next) :
    next.Sublist ((s.candidates o).map (s.tie P (dual <|> s.relaxation) o)) := by
  rw [expand_of_getElem? ho, bind_eq_ok_iff] at h
  obtain ⟨chosen, hchosen, h⟩ := h
  cases h
  have hall := mapM_eq_ok_iff.mp hchosen
  clear hchosen
  generalize s.candidates o = candidates at hall
  induction hall with
  | nil => exact List.Sublist.slnil
  | cons hchoose _ ih =>
    obtain ⟨-, rfl⟩ | ⟨-, -, rfl⟩ | ⟨-, -, -, rfl⟩ := choose_eq_ok_iff.mp hchoose
    · exact ih.cons _
    · exact ih.cons _
    · exact ih.cons_cons _

/-- **No state has the same successor twice.** -/
theorem Explored.nodup (h : Explored P order s) (hd : Decides P order)
    (he : expand P order s dual best = .ok next) : next.Nodup := by
  cases ho : order[s.depth]? with
  | none =>
    rw [expand_of_le (List.getElem?_eq_none_iff.mp ho)] at he
    cases he
    exact List.nodup_nil
  | some o =>
    have hsucc : ∀ t ∈ s.candidates o,
        (s.tie P (dual <|> s.relaxation) o t).successor o = some t :=
      fun t ht => (h.joins ho hd ht).successor_tie.trans (if_pos rfl)
    refine (expand_sublist ho he).nodup (List.Nodup.map_on (fun x hx y hy hxy => ?_)
      (h.coherent.targets_nodup.filter _))
    have hx' := hsucc x hx
    rw [hxy, hsucc y hy, Option.some.injEq] at hx'
    exact hx'.symm

theorem choose_plain (o t : Nat) :
    s.choose P none none o t = some <$> s.assign P s.relaxation o t := rfl

theorem assign_eq_error {o t : Nat} {relaxation : Option Assignment} {f : Fault}
    (h : s.assign P relaxation o t = .error f) : f = .overflow := by
  rw [assign, Cost.add, Cost.checked] at h
  split at h
  · cases h
  · cases h
    rfl

/-- **Without hints, every choice among the candidates is made**, unless a cost overflows. -/
theorem expand_plain (ho : order[s.depth]? = some o) :
    expand P order s none none = .error .overflow ∨
      expand P order s none none = .ok ((s.candidates o).map (s.tie P s.relaxation o)) := by
  rw [expand_of_getElem? ho]
  generalize s.candidates o = candidates
  cases hchosen : candidates.mapM (s.choose P none none o) with
  | error f =>
    obtain ⟨t, -, ht⟩ := mapM_eq_error hchosen
    rw [choose_plain] at ht
    cases hassign : s.assign P s.relaxation o t with
    | ok s' =>
      rw [hassign] at ht
      cases ht
    | error f' =>
      rw [hassign] at ht
      cases ht
      rw [assign_eq_error hassign]
      exact .inl rfl
  | ok chosen =>
    have hall := mapM_eq_ok_iff.mp hchosen
    clear hchosen
    refine .inr (congrArg Except.ok ?_)
    induction hall with
    | nil => rfl
    | cons hchoose _ ih =>
      rw [choose_plain] at hchoose
      obtain ⟨s', hassign, rfl⟩ := map_eq_ok_iff.mp hchoose
      obtain ⟨-, rfl⟩ := assign_eq_ok_iff.mp hassign
      exact congrArg _ ih

/-- **No expansion overflows** if the costs of the arcs are small. -/
theorem Explored.fits (h : Explored P order s) (hd : Decides P order) {most : Int}
    (hmost : 0 ≤ most) (hP : P.Bounded most) (hroom : (P.size + 1) * most ≤ Cost.greatest) :
    expand P order s none none ≠ .error .overflow := by
  obtain ⟨next, he⟩ := h.answers hd hmost hP hroom
  rw [he]
  exact nofun

/-- **No state is a dead end**: an unsolved one has a candidate for the next node. -/
theorem Explored.exists_candidate (h : Explored P order s) (hP : P.WellFormed)
    (hd : Decides P order) (ho : order[s.depth]? = some o) : ∃ b, b ∈ s.candidates o := by
  obtain ⟨R, hR, hkept⟩ := h.coherent.exists_route hP
  obtain ⟨b, hb, -⟩ := h.exists_candidate_arc ho hP hd hR hkept
  exact ⟨b, hb⟩

/-- An unsolved state has a node to decide on. -/
theorem Explored.exists_origin (h : Explored P order s) (hP : P.WellFormed) (hd : Decides P order)
    (hs : s.isSolved = false) : ∃ o, order[s.depth]? = some o := by
  have hlt : s.depth < order.length := by
    have hne : s.depth ≠ order.length := fun he => by
      rw [(h.isSolved_iff_depth hP hd).mpr he] at hs
      cases hs
    have hdepth := h.depth
    have hlen := hd.length hP
    omega
  exact ⟨order[s.depth], List.getElem?_eq_getElem hlt⟩

/-! ## Paths to a route -/

/-- The states lead from `s` to the route `R`, one expansion at a time. -/
def PathTo (D : Domain Chains Assignment) (P : Instance) (s : Chains) (R : List Nat)
    (states : List Chains) : Prop :=
  (s :: states).IsChain D.Precedes ∧
    ∃ x, (s :: states).getLast? = some x ∧ D.solved x = true ∧ x.route P = R

variable {width : Nat} {narrate : Bool}

theorem pathTo_iff {D : Domain Chains Assignment} {states : List Chains} :
    PathTo D P s R states ↔ D.Path (fun x => x.route P = R) s states := Iff.rfl

/-- A choice without hints is one of the candidates. -/
theorem Explored.exists_of_precedes (h : Explored P order s) (hd : Decides P order)
    (hst : (domain P order width narrate).Precedes s u) :
    ∃ o t, order[s.depth]? = some o ∧ Joins P s o t ∧ u = s.tie P s.relaxation o t := by
  obtain ⟨next, he, hu⟩ := hst
  obtain ⟨o, t, ho, ht, rfl⟩ := mem_of_expand he hu
  exact ⟨o, t, ho, h.joins ho hd ht, rfl⟩

/-- A solved state is followed by none. -/
theorem Explored.not_precedes_of_solved (h : Explored P order s) (hP : P.WellFormed)
    (hd : Decides P order) (hs : s.isSolved = true) :
    ¬(domain P order width narrate).Precedes s u := by
  rintro ⟨next, he, hu⟩
  have hend : expand P order s none none = .ok [] :=
    expand_of_le (Nat.le_of_eq ((h.isSolved_iff_depth hP hd).mp hs).symm)
  cases hend.symm.trans he
  cases hu

/-- A solved state is kept by its own route only. -/
theorem Explored.route_of_keptBy (h : Explored P order s) (hP : P.WellFormed)
    (hs : s.isSolved = true) (hR : P.IsRoute R) (hkept : s.KeptBy R) : s.route P = R := by
  obtain ⟨c, -, hc, hall⟩ := h.coherent.thread_all hP (List.isEmpty_iff.mp hs)
  rw [h.route_eq hP hc hall]
  have hin := hc.isInfix hR.nodup hkept fun a ha => hR.mem_iff.mpr ((hall a).mp ha)
  refine hin.eq_of_length ?_
  rw [hR.length, (hc.isRoute hP h.coherent hall).length]

/-- **A route guides the search to itself** by its arcs: no node has two successors in it. -/
theorem guides (hP : P.WellFormed) (hd : Decides P order) (hR : P.IsRoute R) :
    Guides (domain P order width narrate) (fun x => x.route P = R) (Explored P order)
      (fun s => s.KeptBy R) where
  leads h hst := by
    obtain ⟨next, he, hu⟩ := hst
    exact h.step hd he hu
  ends h hs := h.not_precedes_of_solved hP hd hs
  goal_iff h hs :=
    ⟨fun he => he ▸ (h.isRoute_of_solved hP hs).2.2, h.route_of_keptBy hP hs hR⟩
  keeps_of_precedes h hst hkept := by
    obtain ⟨o, t, -, hjoin, rfl⟩ := h.exists_of_precedes hd hst
    exact (hjoin.keptBy_tie.mp hkept).1
  unique h hst hsu hkept hkept' := by
    obtain ⟨o, t, ho, hjoin, rfl⟩ := h.exists_of_precedes hd hst
    obtain ⟨o', t', ho', hjoin', rfl⟩ := h.exists_of_precedes hd hsu
    rw [ho, Option.some.injEq] at ho'
    subst ho'
    rw [arc_right_unique hR.nodup (hjoin.keptBy_tie.mp hkept).2 (hjoin'.keptBy_tie.mp hkept').2]

/-- **There is one path at most**: a node has only one successor in a route. -/
theorem Explored.path_unique (hP : P.WellFormed) (hd : Decides P order) (h : Explored P order s)
    {states states' : List Chains}
    (hpath : PathTo (domain P order width narrate) P s R states)
    (hpath' : PathTo (domain P order width narrate) P s R states') (hR : P.IsRoute R) :
    states = states' :=
  (guides hP hd hR).path_unique h (pathTo_iff.mp hpath) (pathTo_iff.mp hpath')

/-- **There is a path** to each route that keeps the state, unless a cost overflows. -/
theorem Explored.exists_path (hP : P.WellFormed) (hd : Decides P order) (h : Explored P order s)
    (hfits : ∀ n u, Steps (domain P order width narrate).Precedes n s u →
      expand P order u none none ≠ .error .overflow)
    (hR : P.IsRoute R) (hkept : s.KeptBy R) :
    ∃ states, PathTo (domain P order width narrate) P s R states := by
  refine (guides hP hd hR).exists_path (fun s => s.targets.length) (fun hs hst => ?_) h
    (fun n u hn hu hkept hopen => ?_) hkept
  · have hdepth := hs.depth
    have hdepth' := ((guides hP hd hR).leads hs hst).depth
    obtain ⟨o, t, -, -, rfl⟩ := hs.exists_of_precedes hd hst
    rw [tie_depth] at hdepth'
    omega
  · obtain ⟨o, ho⟩ := hu.exists_origin hP hd hopen
    obtain ⟨t, ht, hot⟩ := hu.exists_candidate_arc ho hP hd hR hkept
    have hplain := (expand_plain ho).resolve_left (hfits n u hn)
    exact ⟨_, ⟨_, hplain, List.mem_map_of_mem ht⟩,
      (hu.joins ho hd ht).keptBy_tie.mpr ⟨hkept, hot⟩⟩

/-! ## The search tree -/

/-- **The search by successors explores exactly the routes.** In every state that expansions reach,
whatever their hints, a node without successor may be given `b` just if some route has all the arcs
chosen so far and the arc to `b`; a solved state is a route and costs what its arcs cost; and an
unsolved state is followed by another one, unless a cost overflows. So each route is reached in
exactly one way. -/
theorem explores_routes {d : Draft} (htyped : d.Typed) (hP : Instance.ofDraft d = .ok P)
    (rule : DecisionRule) (infer : Bool) {r : Chains} (hr : root P infer = .ok r) (width : Nat)
    (narrate : Bool) :
    let D := domain P (decisionOrder P rule) width narrate
    (∀ n s, Steps D.Leads n r s →
      (∀ a < P.size, s.successor a = none → ∀ b, b ∈ s.candidates a ↔
        ∃ R, P.IsRoute R ∧ s.KeptBy R ∧ (a, b) ∈ arcs R) ∧
      (D.solved s = true → P.IsRoute (s.route P) ∧ D.cost s = P.routeCost (s.route P)) ∧
      (D.solved s = false → D.expand s none none = .error .overflow ∨
        ∃ u next, D.expand s none none = .ok (u :: next)) ∧
      ∀ dual best next, D.expand s dual best = .ok next → next.Nodup) ∧
    ((∀ n s, Steps D.Precedes n r s → D.expand s none none ≠ .error .overflow) →
      ∀ R, P.IsRoute R → ∃! states, PathTo D P r R states) := by
  have hwf := Instance.wellFormed_of_ofDraft htyped hP
  have hd := decides_decisionOrder P rule
  obtain ⟨relaxation, -, rfl⟩ := root_eq_ok_iff.mp hr
  have hroot : Explored P (decisionOrder P rule) (bare P relaxation) :=
    explored_bare hwf relaxation
  refine ⟨fun n s hs => ?_, fun hfits R hR => ?_⟩
  · have h := hroot.of_steps hd hs
    refine ⟨fun a ha hfree b => mem_candidates_iff h.coherent h.sound hwf ha hfree,
      fun hsolved => ?_, fun hsolved => ?_, fun dual best next he => h.nodup hd he⟩
    · obtain ⟨hroute, hcost, -⟩ := h.isRoute_of_solved hwf hsolved
      exact ⟨hroute, hcost⟩
    · obtain ⟨o, ho⟩ := h.exists_origin hwf hd hsolved
      obtain ⟨b, hb⟩ := h.exists_candidate hwf hd ho
      refine (expand_plain ho).imp_right fun he => ?_
      obtain ⟨u, next, hnext⟩ := List.exists_cons_of_ne_nil
        (List.ne_nil_of_mem (List.mem_map_of_mem (f := s.tie P s.relaxation o) hb))
      exact ⟨u, next, he.trans (congrArg Except.ok hnext)⟩
  · obtain ⟨states, hpath⟩ := hroot.exists_path hwf hd hfits hR keptBy_bare
    exact ⟨states, hpath, fun states' hpath' => hroot.path_unique hwf hd hpath' hpath hR⟩

/-- The routes with two requests are reached in one way each, whatever the hints on other ways. -/
theorem dearReturn_explored : Instance.dearReturnDraft.Typed ∧
    Instance.ofDraft Instance.dearReturnDraft = .ok Instance.dearReturn ∧
    root Instance.dearReturn false = .ok (bare Instance.dearReturn none) ∧
    let D := domain Instance.dearReturn (decisionOrder Instance.dearReturn .regret) 1 false
    (∀ n s, Steps D.Leads n (bare Instance.dearReturn none) s →
      D.solved s = false → D.expand s none none = .error .overflow ∨
        ∃ u next, D.expand s none none = .ok (u :: next)) ∧
    ∀ R, Instance.dearReturn.IsRoute R →
      ∃! states, PathTo D Instance.dearReturn (bare Instance.dearReturn none) R states := by
  have h := explores_routes Instance.typed_dearReturn Instance.ofDraft_dearReturn .regret false
    rfl 1 false
  have hroot : Explored Instance.dearReturn (decisionOrder Instance.dearReturn .regret)
      (bare Instance.dearReturn none) :=
    explored_bare Instance.wellFormed_dearReturn none
  refine ⟨Instance.typed_dearReturn, Instance.ofDraft_dearReturn, rfl,
    fun n s hs => (h.1 n s hs).2.2.1, h.2 fun n s hs => ?_⟩
  exact (hroot.of_steps (decides_decisionOrder _ _) (hs.mono fun _ _ => Space.Precedes.leads)).fits
    (decides_decisionOrder _ _) (by decide) Instance.bounded_dearReturn (by decide)

end Fathom.Routing.Chains
