import Fathom.Proofs.Routing.Enumeration
import Fathom.Proofs.Routing.Relaxation
import Fathom.Proofs.Routing.Visiting

/-!
# What is inferred below a state

The relaxation of a state is the one that its parent was expanded with, and inference forbids what
the last choice rules out: the other arcs to the node that was chosen, and, where successors are
chosen, the arcs from what comes before the chain of that choice to what comes after it. None of
these arcs belongs to a route that the state leads to, so that at every depth the relaxation still
admits all of them.

Results:
* `Visits.exists_inference`, `Chains.exists_inference`: inference answers with a relaxation that
  admits the routes the state leads to;
* `inference_bounds_routes`: along expansions with inferred hints, its value bounds the closed
  routes from below, and no arc of an improving one is filtered.
-/

namespace Fathom

/-- `t` follows `s` when it is expanded with the best state of its own inference, and any
incumbent. -/
def Domain.Follows {σ δ : Type} (D : Domain σ δ) (s t : σ) : Prop :=
  ∃ d x best next, D.infer s = .ok (some d) ∧ d.layer.best D.dual.cost = some x ∧
    D.expand s (some x) best = .ok next ∧ t ∈ next

namespace Routing

open Assignment (Serves forbidden)

variable {P : Instance} {most : Int} {R : List Nat} {order : List Nat} {a : Assignment}

/-! ## Sequences of visits -/

namespace Visits

variable {s t : Visits}

/-- **Inference answers**, with a relaxation that admits the routes that continue the state. -/
theorem exists_inference {interest interest' : List Nat → Prop} (hmost : forbidden ≤ most)
    (hs : InNodes P s) (hrelax : s.relaxation = some a) (ha : Serves P most interest a)
    (hle : ∀ R, P.IsRoute R → interest' R → interest R ∧ s.route <+: R) :
    ∃ x, s.inference = .ok (some x) ∧ Serves P most interest' x := by
  obtain ⟨node, earlier, feasible, cost, relaxation⟩ := s
  cases hrelax
  cases earlier with
  | nil => exact ⟨a, rfl, ha.mono fun R hR hi => (hle R hR hi).1⟩
  | cons before earlier =>
    have hlt : ∀ arc ∈ a.rivals before node, arc.1 < P.size ∧ arc.2 < P.size := by
      intro arc harc
      obtain ⟨hlt, -, htarget⟩ := Assignment.mem_rivals.mp harc
      exact ⟨ha.size ▸ hlt, htarget ▸ hs.node_lt⟩
    have hfree : ∀ R, P.IsRoute R → route ⟨node, before :: earlier, feasible, cost, some a⟩ <+: R →
        ∀ arc ∈ a.rivals before node, arc ∉ P.closedArcs R := by
      intro R hR hpre arc harc
      have harc' : (before, node) ∈ arcs R :=
        mem_arcs_of_append (l := earlier.reverse) (by simpa [route] using hpre)
      exact Assignment.not_mem_closedArcs_of_rival hR harc' harc
    obtain ⟨x, hx, hserves⟩ := ha.without hmost hlt fun R hR hi =>
      ⟨(hle R hR hi).1, hfree R hR (hle R hR hi).2⟩
    exact ⟨x, map_eq_ok_iff.mpr ⟨x, hx, rfl⟩, hserves⟩

end Visits

/-! ## Choices of successors -/

namespace Chains

variable {s t : Chains}

theorem lastArc_of_depth_zero (h : s.depth = 0) : s.lastArc? order = none := by
  unfold lastArc?
  rw [if_pos h]
  rfl

/-- The last arc is the one from the node that was decided on last. -/
theorem Explored.lastArc_eq_some (h : Explored P order s) (hP : P.WellFormed)
    (hd : Decides P order) (hdepth : s.depth ≠ 0) :
    ∃ o b, s.lastArc? order = some (o, b) ∧ s.successor o = some b := by
  have hlt : s.depth - 1 < order.length := by
    have := h.depth
    have := hd.length hP
    omega
  have ho : order[s.depth - 1] ∈ order.take s.depth :=
    List.mem_take_iff_getElem.mpr ⟨s.depth - 1, by omega, rfl⟩
  obtain ⟨b, hb⟩ := Option.ne_none_iff_exists'.mp fun hnone => (h.chosen _).mp hnone ho
  refine ⟨_, b, ?_, hb⟩
  rw [lastArc?, if_neg hdepth, List.getElem?_eq_getElem hlt]
  simp [hb]

/-- A bypass goes from what comes before the chain to what comes after it. -/
theorem mem_bypasses {o : Nat} {arc : Nat × Nat} (h : arc ∈ s.bypasses o) :
    arc.1 ∈ (s.link o).before ∧ arc.2 ∈ (s.link o).after := by
  obtain ⟨b, hb, h⟩ := List.mem_flatMap.mp h
  obtain ⟨c, hc, rfl⟩ := List.mem_map.mp h
  exact ⟨(NodeSet.mem_members.mp hb).2, (NodeSet.mem_members.mp hc).2⟩

/-- **No route that keeps the state bypasses a chain.** -/
theorem Explored.not_mem_closedArcs_of_bypass (h : Explored P order s) (hR : P.IsRoute R)
    (hkept : s.KeptBy R) {o : Nat} {arc : Nat × Nat} (harc : arc ∈ s.bypasses o) :
    arc ∉ P.closedArcs R := by
  obtain ⟨hb, hc⟩ := mem_bypasses harc
  have hfirst := h.sound R hR hkept _ _ hb
  have hsecond := h.sound R hR hkept _ _ (h.coherent.converse.mpr hc)
  intro hm
  obtain hm | ⟨hfinish, -⟩ := Instance.mem_closedArcs.mp hm
  · have := ((mem_arcs_iff hR.nodup).mp hm).2
    omega
  · have ho := h.coherent.size ▸ lt_of_mem_before hb
    have := hR.idxOf_lt ho
    rw [hfinish, hR.idxOf_finish] at hfirst
    omega

/-- **Inference answers**, with a relaxation that admits the routes that keep the state. -/
theorem exists_inference {interest interest' : List Nat → Prop} (hmost : forbidden ≤ most)
    (hP : P.WellFormed) (hd : Decides P order) (hs : Explored P order s)
    (hrelax : s.relaxation = some a) (ha : Serves P most interest a)
    (hle : ∀ R, P.IsRoute R → interest' R → interest R ∧ s.KeptBy R) :
    ∃ x, s.inference order = .ok (some x) ∧ Serves P most interest' x := by
  by_cases hdepth : s.depth = 0
  · refine ⟨a, ?_, ha.mono fun R hR hi => (hle R hR hi).1⟩
    rw [inference, hrelax, lastArc_of_depth_zero hdepth]
  · obtain ⟨o, b, hlast, hsucc⟩ := hs.lastArc_eq_some hP hd hdepth
    have hlt : ∀ arc ∈ a.rivals o b ++ s.bypasses o, arc.1 < P.size ∧ arc.2 < P.size := by
      intro arc harc
      obtain harc | harc := List.mem_append.mp harc
      · obtain ⟨hlt, -, htarget⟩ := Assignment.mem_rivals.mp harc
        exact ⟨ha.size ▸ hlt, htarget ▸ hs.coherent.successor_lt hsucc⟩
      · obtain ⟨hb, hc⟩ := mem_bypasses harc
        exact ⟨hs.coherent.lt_of_mem_before hb,
          hs.coherent.size ▸ lt_of_mem_before (hs.coherent.converse.mpr hc)⟩
    have hfree : ∀ R, P.IsRoute R → s.KeptBy R →
        ∀ arc ∈ a.rivals o b ++ s.bypasses o, arc ∉ P.closedArcs R := by
      intro R hR hkept arc harc
      obtain harc | harc := List.mem_append.mp harc
      · exact Assignment.not_mem_closedArcs_of_rival hR (hkept o b hsucc) harc
      · exact hs.not_mem_closedArcs_of_bypass hR hkept harc
    obtain ⟨x, hx, hserves⟩ := ha.without hmost hlt fun R hR hi =>
      ⟨(hle R hR hi).1, hfree R hR (hle R hR hi).2⟩
    refine ⟨x, ?_, hserves⟩
    rw [inference, hrelax, hlast]
    exact map_eq_ok_iff.mpr ⟨x, hx, rfl⟩

end Chains

/-! ## Along a search -/

/-- What the inference of `s` tells of a route: its value is at most the cost of the closed route,
and it filters no arc of the route against an incumbent that the closed route beats. -/
def Infers (P : Instance) {σ : Type} (D : Domain σ Assignment) (s : σ) (R : List Nat) : Prop :=
  ∃ d x, D.infer s = .ok (some d) ∧ d.layer.best D.dual.cost = some x ∧
    D.dual.cost x ≤ P.closedCost R ∧
    ∀ i j, (i, j) ∈ arcs R → ∀ b, ∃ verdict, x.filters i j (some b) = .ok verdict ∧
      (verdict = true → b ≤ P.closedCost R)

/-- The only state of a diagram of relaxations is the relaxation. -/
theorem best_diagram {x y : Assignment} {width : Nat}
    (h : (x.diagram width).layer.best Assignment.space.cost = some y) : y = x :=
  (Option.some.inj h).symm

theorem Assignment.Serves.infers {interest : List Nat → Prop} {σ : Type} {D : Domain σ Assignment}
    {s : σ} {width : Nat} (h : Serves P most interest a)
    (hinfer : D.infer s = .ok (some (a.diagram width))) (hdual : D.dual = Assignment.space)
    (hR : P.IsRoute R) (hi : interest R) : Infers P D s R := by
  refine ⟨_, a, hinfer, by rw [hdual]; rfl, by rw [hdual]; exact h.value_le hR hi,
    fun i j harc b => ?_⟩
  have hlt := hR.mem_iff.mp (mem_left_of_arc harc)
  have hlt' := hR.mem_iff.mp (mem_right_of_arc harc)
  obtain ⟨verdict, hverdict⟩ := h.filters_total hlt hlt' (some b)
  refine ⟨verdict, hverdict, ?_⟩
  rintro rfl
  exact h.le_of_filters hR hi harc hverdict

namespace Visits

variable {s t : Visits} {width : Nat} {relax narrate : Bool}

/-- A state whose relaxation admits the routes that continue it. -/
def Informed (P : Instance) (most : Int) (s : Visits) : Prop :=
  InNodes P s ∧ ∃ a, s.relaxation = some a ∧ Serves P most (s.route <+: ·) a

theorem Informed.infer (h : Informed P most s) (hmost : forbidden ≤ most) (width : Nat)
    (relax narrate : Bool) :
    ∃ x, (domain P width relax narrate).infer s = .ok (some (x.diagram width)) ∧
      Serves P most (s.route <+: ·) x := by
  obtain ⟨hs, a, hrelax, ha⟩ := h
  obtain ⟨x, hx, hserves⟩ := exists_inference hmost hs hrelax ha fun _ _ h => ⟨h, h⟩
  exact ⟨x, bind_eq_ok_iff.mpr ⟨some x, hx, rfl⟩, hserves⟩

/-- **Expanding with the inferred relaxation keeps states informed.** -/
theorem Informed.step (h : Informed P most s) (hmost : forbidden ≤ most) (hP : P.WellFormed)
    (hst : (domain P width relax narrate).Follows s t) : Informed P most t := by
  obtain ⟨x, hx, hserves⟩ := h.infer hmost width relax narrate
  obtain ⟨d, y, best, next, hd, hy, he, ht⟩ := hst
  cases hx.symm.trans hd
  obtain rfl := best_diagram hy
  obtain ⟨v, hv, rfl⟩ := mem_of_expand he ht
  refine ⟨h.1.go hP hv, y, rfl, hserves.mono fun R _ hpre => ?_⟩
  rw [route_go] at hpre
  exact (List.prefix_append _ _).trans hpre

end Visits

namespace Chains

variable {s t : Chains} {width : Nat} {narrate : Bool}

/-- A state whose relaxation admits the routes that keep it. -/
def Informed (P : Instance) (order : List Nat) (most : Int) (s : Chains) : Prop :=
  Explored P order s ∧ ∃ a, s.relaxation = some a ∧ Serves P most s.KeptBy a

theorem Informed.infer (h : Informed P order most s) (hmost : forbidden ≤ most)
    (hP : P.WellFormed) (hd : Decides P order) (width : Nat) (narrate : Bool) :
    ∃ x, (domain P order width narrate).infer s = .ok (some (x.diagram width)) ∧
      Serves P most s.KeptBy x := by
  obtain ⟨hs, a, hrelax, ha⟩ := h
  obtain ⟨x, hx, hserves⟩ := exists_inference hmost hP hd hs hrelax ha fun _ _ h => ⟨h, h⟩
  exact ⟨x, bind_eq_ok_iff.mpr ⟨some x, hx, rfl⟩, hserves⟩

/-- **Expanding with the inferred relaxation keeps states informed.** -/
theorem Informed.step (h : Informed P order most s) (hmost : forbidden ≤ most)
    (hP : P.WellFormed) (hdec : Decides P order)
    (hst : (domain P order width narrate).Follows s t) : Informed P order most t := by
  obtain ⟨x, hx, hserves⟩ := h.infer hmost hP hdec width narrate
  obtain ⟨d, y, best, next, hd, hy, he, ht⟩ := hst
  cases hx.symm.trans hd
  obtain rfl := best_diagram hy
  refine ⟨h.1.step hdec he ht, y, ?_⟩
  obtain ⟨o, b, ho, hb, rfl⟩ := mem_of_expand he ht
  exact ⟨rfl, hserves.mono fun R _ hkept => ((h.1.joins ho hdec hb).keptBy_tie.mp hkept).1⟩

end Chains

/-- Along expansions with inferred hints, inference tells so much of every route that a state leads
to. -/
def InfersBelow (P : Instance) {σ : Type} (D : Domain σ Assignment) (leadsTo : σ → List Nat → Prop)
    (r : σ) : Prop :=
  ∀ n s, Steps D.Follows n r s → ∀ R, P.IsRoute R → leadsTo s R → Infers P D s R

/-- **The assignment bound and filter are valid once the closing arc is counted**, in both
formulations, as long as there is a request and the costs leave room for sums. -/
theorem inference_bounds_routes {d : Draft} (htyped : d.Typed) (hP : Instance.ofDraft d = .ok P)
    (hreq : P.pickups ≠ []) (hbounded : P.Bounded most)
    (hroom : 4 * (P.size + 1) * max most forbidden ≤ Cost.greatest) (width : Nat) (narrate : Bool) :
    (∀ relax, ∃ r, Visits.root P true = .ok r ∧
      InfersBelow P (Visits.domain P width relax narrate) (fun s R => s.route <+: R) r) ∧
    ∀ rule, ∃ r, Chains.root P true = .ok r ∧
      InfersBelow P (Chains.domain P (Chains.decisionOrder P rule) width narrate)
        (fun s R => s.KeptBy R) r := by
  have hwf := Instance.wellFormed_of_ofDraft htyped hP
  have hmost : forbidden ≤ max most forbidden := Int.le_max_right ..
  obtain ⟨a, ha, hserves⟩ := Assignment.serves_relaxation hwf hreq hbounded hroom
  constructor
  · intro relax
    refine ⟨⟨P.start, [], P.pickups, 0, some a⟩, ?_, fun n s hs R hR hpre => ?_⟩
    · rw [Visits.root, ha]
      rfl
    · have hroot : Visits.Informed P (max most forbidden) ⟨P.start, [], P.pickups, 0, some a⟩ := by
        refine ⟨⟨hwf.start_lt, fun v hv => ?_⟩, a, rfl, hserves.mono fun _ _ _ => trivial⟩
        exact List.mem_range.mp (List.mem_of_mem_filter hv)
      have hinformed := hs.invariant (P := fun _ s => Visits.Informed P (max most forbidden) s)
        hroot fun _ _ _ hs hst => hs.step hmost hwf hst
      obtain ⟨x, hx, hserves⟩ := hinformed.infer hmost width relax narrate
      exact hserves.infers hx rfl hR hpre
  · intro rule
    have hd := Chains.decides_decisionOrder P rule
    refine ⟨Chains.bare P (some a), ?_, fun n s hs R hR hkept => ?_⟩
    · rw [Chains.root, ha]
      rfl
    · have hroot : Chains.Informed P (Chains.decisionOrder P rule) (max most forbidden)
          (Chains.bare P (some a)) :=
        ⟨Chains.explored_bare hwf _, a, rfl, hserves.mono fun _ _ _ => trivial⟩
      have hinformed := hs.invariant
        (P := fun _ s => Chains.Informed P (Chains.decisionOrder P rule) (max most forbidden) s)
        hroot fun _ _ _ hs hst => hs.step hmost hwf hd hst
      obtain ⟨x, hx, hserves⟩ := hinformed.infer hmost hwf hd width narrate
      exact hserves.infers hx rfl hR hkept

/-- Inference is right on the way back that costs more than all other arcs of a route. -/
theorem dearReturn_infers : Instance.dearReturnDraft.Typed ∧
    Instance.ofDraft Instance.dearReturnDraft = .ok Instance.dearReturn ∧
    Instance.dearReturn.pickups ≠ [] ∧ Instance.dearReturn.Bounded 100 ∧
    4 * (Instance.dearReturn.size + 1) * max 100 forbidden ≤ Cost.greatest ∧
    ∃ r, Chains.root Instance.dearReturn true = .ok r ∧
      InfersBelow Instance.dearReturn (Chains.domain Instance.dearReturn
        (Chains.decisionOrder Instance.dearReturn .greedy) 1 false) (fun s R => s.KeptBy R) r := by
  have hreq : Instance.dearReturn.pickups ≠ [] := by decide
  have hroom : 4 * (Instance.dearReturn.size + 1) * max 100 forbidden ≤ Cost.greatest := by decide
  exact ⟨Instance.typed_dearReturn, Instance.ofDraft_dearReturn, hreq, Instance.bounded_dearReturn,
    hroom, (inference_bounds_routes Instance.typed_dearReturn Instance.ofDraft_dearReturn hreq
      Instance.bounded_dearReturn hroom 1 false).2 .greedy⟩

end Routing

end Fathom
