import Fathom.Proofs.Paths
import Fathom.Proofs.Routing.Visiting

/-!
# Routes that continue a partial route

Every partial route is the beginning of some route (`Coherent.exists_route`): as long as a node is
left, one is feasible, and the visit of a feasible node is a partial route again. So the feasible
nodes are just the ones by which routes go on (`Coherent.mem_feasible_iff`). Two visits differ in
their last nodes, hence there is one way only down to each route (`guides`).

Results:
* `traverses_routes`: the search by visits goes through exactly the routes, and meets no dead end.
-/

namespace Fathom.Routing.Visits

variable {P : Instance} {s t : Visits} {v w width : Nat} {R : List Nat} {relax narrate : Bool}
  {relaxation dual : Option Assignment} {best : Option Int} {next : List Visits}

/-! ## Completing a partial route -/

/-- A list goes on from its beginning in one way. -/
theorem eq_of_prefix_concat {l : List Nat} (hv : l ++ [v] <+: R) (hw : l ++ [w] <+: R) : v = w := by
  have heq := (List.prefix_of_prefix_length_le hv hw (by simp)).eq_of_length (by simp)
  exact (List.cons.inj (List.append_cancel_left heq)).1

namespace Coherent

variable (h : s.Coherent P)

include h

/-- **Every partial route is the beginning of a route.** -/
theorem exists_route (hP : P.WellFormed) (hone : P.OneToOne) :
    ∃ R, P.IsRoute R ∧ s.route <+: R := by
  induction hn : P.size - s.route.length generalizing s with
  | zero =>
    have hlen : s.route.length = P.size := by
      have := h.length_le
      omega
    have hsolved := List.isEmpty_iff.mp ((h.isSolved_iff hP).mpr hlen)
    exact ⟨s.route, h.isRoute_of_solved hP hsolved, List.prefix_rfl⟩
  | succ n ih =>
    have hopen : s.feasible ≠ [] := fun hnil => by
      have := (h.isRoute_of_solved hP hnil).length
      omega
    obtain ⟨v, hv⟩ := List.exists_mem_of_ne_nil _ hopen
    have hgo : Coherent P (s.go P none v) := h.go hP hone hv
    have hless : P.size - (s.go P none v).route.length = n := by
      rw [route_go, List.length_append, List.length_singleton]
      omega
    obtain ⟨R, hR, hpre⟩ := ih hgo hless
    rw [route_go] at hpre
    exact ⟨R, hR, (List.prefix_append _ _).trans hpre⟩

/-- **The feasible nodes are those by which routes go on.** -/
theorem mem_feasible_iff (hP : P.WellFormed) (hone : P.OneToOne) :
    v ∈ s.feasible ↔ ∃ R, P.IsRoute R ∧ s.route ++ [v] <+: R := by
  constructor
  · intro hv
    have hgo : Coherent P (s.go P none v) := h.go hP hone hv
    obtain ⟨R, hR, hpre⟩ := hgo.exists_route hP hone
    exact ⟨R, hR, by rwa [route_go] at hpre⟩
  · rintro ⟨R, hR, hpre⟩
    have hlen := hpre.length_le
    rw [List.length_append, List.length_singleton, hR.length] at hlen
    obtain ⟨w, hw, hpre'⟩ :=
      h.exists_next hP hR ((List.prefix_append _ _).trans hpre) (by omega)
    exact eq_of_prefix_concat hpre hpre' ▸ hw

/-- A partial route is solved when it is a route. -/
theorem isSolved_iff_isRoute (hP : P.WellFormed) : s.isSolved = true ↔ P.IsRoute s.route :=
  ⟨fun hs => h.isRoute_of_solved hP (List.isEmpty_iff.mp hs),
    fun hR => (h.isSolved_iff hP).mpr hR.length⟩

/-- A partial route that is solved has the only route that continues it. -/
theorem route_eq_iff_of_solved (hP : P.WellFormed) (hR : P.IsRoute R) (hs : s.isSolved = true) :
    s.route = R ↔ s.route <+: R :=
  ⟨fun he => he ▸ List.prefix_rfl,
    fun hpre => hpre.eq_of_length (((h.isSolved_iff hP).mp hs).trans hR.length.symm)⟩

end Coherent

/-! ## Expansions -/

/-- An expansion makes its visits in the order of the feasible nodes. -/
theorem expand_sublist (h : expand P s dual best = .ok next) :
    next.Sublist (s.feasible.map (s.go P (dual <|> s.relaxation))) := by
  rw [expand, bind_eq_ok_iff] at h
  obtain ⟨reached, hreached, h⟩ := h
  cases h
  have hall := mapM_eq_ok_iff.mp hreached
  clear hreached
  generalize s.feasible = feasible at hall
  induction hall with
  | nil => exact List.Sublist.slnil
  | cons hvisit _ ih =>
    obtain ⟨-, ⟨-, rfl⟩ | ⟨-, -, rfl⟩ | ⟨-, -, rfl⟩⟩ := visit_eq_ok_iff.mp hvisit
    · exact ih.cons _
    · exact ih.cons _
    · exact ih.cons_cons _

/-- **No partial route goes on to the same node twice.** -/
theorem Coherent.nodup_of_expand (h : s.Coherent P) (he : expand P s dual best = .ok next) :
    next.Nodup :=
  (expand_sublist he).nodup (h.feasible_nodup.map fun _ _ hvw => congrArg node hvw)

/-- **No partial route is a dead end.** -/
theorem expand_plain_of_open (hopen : s.isSolved = false) :
    expand P s none none = .error .overflow ∨ ∃ t next, expand P s none none = .ok (t :: next) := by
  refine (expand_plain s).imp_right fun he => ?_
  cases hfeasible : s.feasible with
  | nil =>
    rw [isSolved, hfeasible] at hopen
    cases hopen
  | cons v feasible =>
    rw [hfeasible] at he
    exact ⟨_, _, he⟩

/-! ## Paths to a route -/

/-- A visit without hints is a visit of a feasible node. -/
theorem exists_of_precedes (hst : (domain P width relax narrate).Precedes s t) :
    ∃ v ∈ s.feasible, t = s.go P s.relaxation v := by
  obtain ⟨next, he, ht⟩ := hst
  exact mem_of_expand he ht

/-- **A route guides the search to itself** through its beginnings. -/
theorem guides (hP : P.WellFormed) (hone : P.OneToOne) (hR : P.IsRoute R) :
    Guides (domain P width relax narrate) (fun s => s.route = R) (Coherent P)
      (fun s => s.route <+: R) where
  leads h hst := by
    obtain ⟨v, hv, rfl⟩ := exists_of_precedes hst
    exact h.go hP hone hv
  ends h hs hst := by
    obtain ⟨v, hv, -⟩ := exists_of_precedes hst
    rw [List.isEmpty_iff.mp hs] at hv
    cases hv
  goal_iff h hs := h.route_eq_iff_of_solved hP hR hs
  keeps_of_precedes h hst hpre := by
    obtain ⟨v, -, rfl⟩ := exists_of_precedes hst
    rw [route_go] at hpre
    exact (List.prefix_append _ _).trans hpre
  unique h hst hsu hpre hpre' := by
    obtain ⟨v, -, rfl⟩ := exists_of_precedes hst
    obtain ⟨w, -, rfl⟩ := exists_of_precedes hsu
    rw [route_go] at hpre hpre'
    rw [eq_of_prefix_concat hpre hpre']

/-- **There is a path** to each route that continues the partial route, unless a cost overflows. -/
theorem Coherent.exists_path (h : s.Coherent P) (hP : P.WellFormed) (hone : P.OneToOne)
    (hfits : ∀ n t, Steps (domain P width relax narrate).Precedes n s t →
      expand P t none none ≠ .error .overflow) (hR : P.IsRoute R) (hpre : s.route <+: R) :
    ∃ states, (domain P width relax narrate).Path (fun x => x.route = R) s states := by
  refine (guides hP hone hR).exists_path (fun s => P.size - s.route.length)
    (fun {s t} hs hst => ?_) h (fun n t hn ht hpre hopen => ?_) hpre
  · have hlen := ((guides hP hone hR).leads hs hst).length_le
    obtain ⟨v, -, rfl⟩ := exists_of_precedes hst
    rw [route_go, List.length_append, List.length_singleton] at hlen ⊢
    omega
  · have hlt : t.route.length < P.size := Nat.lt_of_le_of_ne ht.length_le fun he => by
      have : t.isSolved = false := hopen
      rw [(ht.isSolved_iff hP).mpr he] at this
      cases this
    obtain ⟨v, hv, hpre'⟩ := ht.exists_next hP hR hpre hlt
    have hplain := (expand_plain t).resolve_left (hfits n t hn)
    exact ⟨_, ⟨_, hplain, List.mem_map_of_mem hv⟩, by rwa [route_go]⟩

/-! ## The search tree -/

/-- **The search by visits goes through exactly the routes.** In every state that expansions reach,
whatever their hints, the feasible nodes are those by which some route continues the partial route,
none of them twice; the state is solved just if its route is complete, and costs what the arcs cost;
and an unsolved state is followed by another one, unless a cost overflows. So each route is reached
in exactly one way. -/
theorem traverses_routes {d : Draft} (htyped : d.Typed) (hP : Instance.ofDraft d = .ok P)
    (hreq : P.pickups ≠ []) (hone : P.OneToOne) (infer : Bool) {r : Visits}
    (hr : root P infer = .ok r) (width : Nat) (relax narrate : Bool) :
    let D := domain P width relax narrate
    (∀ n s, Steps D.Leads n r s →
      (∀ v, v ∈ s.feasible ↔ ∃ R, P.IsRoute R ∧ s.route ++ [v] <+: R) ∧ s.feasible.Nodup ∧
      (D.solved s = true ↔ P.IsRoute s.route) ∧ D.cost s = P.routeCost s.route ∧
      (D.solved s = false → D.expand s none none = .error .overflow ∨
        ∃ t next, D.expand s none none = .ok (t :: next)) ∧
      ∀ dual best next, D.expand s dual best = .ok next → next.Nodup) ∧
    ((∀ n s, Steps D.Precedes n r s → D.expand s none none ≠ .error .overflow) →
      ∀ R, P.IsRoute R → ∃! states, D.Path (fun x => x.route = R) r states) := by
  have hwf := Instance.wellFormed_of_ofDraft htyped hP
  obtain ⟨relaxation, -, rfl⟩ := root_eq_ok_iff.mp hr
  have hroot : Coherent P ⟨P.start, [], P.pickups, 0, relaxation⟩ := coherent_root hwf hreq
  refine ⟨fun n s hs => ?_, fun hfits R hR => ?_⟩
  · have h := hroot.of_steps hwf hone hs
    exact ⟨fun v => h.mem_feasible_iff hwf hone, h.feasible_nodup, h.isSolved_iff_isRoute hwf,
      h.cost, expand_plain_of_open, fun dual best next he => h.nodup_of_expand he⟩
  · have hpre : [P.start] <+: R := by
      obtain ⟨rest, rfl⟩ := List.head?_eq_some_iff.mp hR.first
      exact ⟨rest, rfl⟩
    obtain ⟨states, hpath⟩ := hroot.exists_path hwf hone hfits hR hpre
    exact ⟨states, hpath,
      fun states' hpath' => (guides hwf hone hR).path_unique hroot hpath' hpath⟩

/-- The routes with two requests are reached in one way each. -/
theorem dearReturn_traversed : Instance.dearReturnDraft.Typed ∧
    Instance.ofDraft Instance.dearReturnDraft = .ok Instance.dearReturn ∧
    Instance.dearReturn.pickups ≠ [] ∧ Instance.dearReturn.OneToOne ∧
    root Instance.dearReturn false = .ok ⟨0, [], [1, 3], 0, none⟩ ∧
    let D := domain Instance.dearReturn 1 false false
    (∀ n s, Steps D.Leads n ⟨0, [], [1, 3], 0, none⟩ s → D.solved s = false →
      D.expand s none none = .error .overflow ∨
        ∃ t next, D.expand s none none = .ok (t :: next)) ∧
    ∀ R, Instance.dearReturn.IsRoute R →
      ∃! states, D.Path (fun x => x.route = R) ⟨0, [], [1, 3], 0, none⟩ states := by
  have hreq : Instance.dearReturn.pickups ≠ [] := by decide
  have h := traverses_routes Instance.typed_dearReturn Instance.ofDraft_dearReturn hreq
    Instance.oneToOne_dearReturn false
    (show root Instance.dearReturn false = .ok ⟨0, [], [1, 3], 0, none⟩ from rfl) 1 false false
  have hwf := Instance.wellFormed_dearReturn
  refine ⟨Instance.typed_dearReturn, Instance.ofDraft_dearReturn, hreq,
    Instance.oneToOne_dearReturn, rfl,
    fun n s hs => (h.1 n s hs).2.2.2.2.1, h.2 fun n s hs => ?_⟩
  have hroot : Coherent Instance.dearReturn ⟨0, [], [1, 3], 0, none⟩ := coherent_root hwf hreq
  have hs' := hroot.of_steps hwf Instance.oneToOne_dearReturn
    (hs.mono fun _ _ => Space.Precedes.leads)
  obtain ⟨next, he⟩ : ∃ next, expand Instance.dearReturn s none none = .ok next :=
    expand_total fun v hv => ⟨hs'.inRange (by decide) Instance.bounded_dearReturn (by decide)
      ((hs'.inNodes hwf).feasible_lt v hv), false, rfl⟩
  exact fun hoverflow => by cases he.symm.trans hoverflow

end Fathom.Routing.Visits
