import Fathom.Proofs.Routing.Formulation
import Fathom.Proofs.Routing.Inference
import Mathlib.Data.List.Permutation

/-!
# What inference changes of the answer

Both ways to search for a route, by visits and by successors, are formulations, with inference and
without. A search that infers prunes by the cost of closed routes, though, and the routes that it
returns are not closed. What it returns is thus a cheapest route up to the cost of the arc from the
end depot back to the start: an optimum if that arc is free, and perhaps a dearer route if it is not
(`dearReturn_disagrees`).

Results:
* `Visits.formulation`, `Chains.formulation`: both ways to search are formulations;
* `inference_agrees`: with and without inference, a search returns routes that it claims to be
  optimal, and their costs differ by at most the cost of the arc back.
-/

namespace Fathom.Routing

open Assignment (Serves forbidden)
open Formulation (Returns)

variable {P : Instance} {most : Int} {infer : Bool} {R : List Nat} {order : List Nat} {n : Nat}
  {interest interest' : List Nat → Prop}

/-! ## Sequences of visits -/

namespace Visits

variable {s : Visits} {width : Nat} {narrate : Bool}

/-- **Inference answers**, and what is inferred fits. -/
theorem fits_inference (hmost : forbidden ≤ most) (hs : InNodes P s)
    (hfits : Fits P most infer interest s.relaxation)
    (hle : ∀ R, P.IsRoute R → interest' R → interest R ∧ s.route <+: R) :
    ∃ hint, s.inference = .ok hint ∧ Fits P most infer interest' hint := by
  cases hrelax : s.relaxation with
  | none =>
    refine ⟨none, ?_, fits_none⟩
    rw [Visits.inference, hrelax]
  | some a =>
    obtain ⟨rfl, ha⟩ := hfits a hrelax
    obtain ⟨x, hx, hserves⟩ := exists_inference hmost hs hrelax ha hle
    exact ⟨some x, hx, fits_some hserves⟩

/-- A partial route that has gone on `n` times, with a relaxation that fits it. -/
structure Level (P : Instance) (most : Int) (infer : Bool) (n : Nat) (s : Visits) : Prop where
  coherent : Coherent P s
  length : s.route.length = n + 1
  relaxation : Fits P most infer (s.route <+: ·) s.relaxation

theorem Level.inference (h : Level P most infer n s) (hP : P.WellFormed)
    (hmost : forbidden ≤ most) :
    ∃ hint, s.inference = .ok hint ∧ Fits P most infer (s.route <+: ·) hint :=
  fits_inference hmost (h.coherent.inNodes hP) h.relaxation fun _ _ h => ⟨h, h⟩

theorem Level.go (h : Level P most infer n s) (hP : P.WellFormed) (hone : P.OneToOne) {v : Nat}
    (hv : v ∈ s.feasible) {hint : Option Assignment}
    (hhint : Fits P most infer (s.route <+: ·) hint) :
    Level P most infer (n + 1) (s.go P (hint <|> s.relaxation) v) where
  coherent := h.coherent.go hP hone hv
  length := by rw [route_go, List.length_append, h.length, List.length_singleton]
  relaxation := (hhint.orElse h.relaxation).mono fun R _ hpre => by
    rw [route_go] at hpre
    exact (List.prefix_append _ _).trans hpre

theorem Level.expand_total (h : Level P most infer n s) (hP : P.WellFormed)
    (hbounded : P.Bounded most) (hmost : forbidden ≤ most)
    (hroom : (P.size + 1) * most ≤ Cost.greatest) {hint : Option Assignment}
    (hhint : Fits P most infer (s.route <+: ·) hint) (best : Option Int) :
    ∃ next, expand P s hint best = .ok next := by
  have hzero : (0 : Int) ≤ most := Int.le_trans (by decide) hmost
  refine Visits.expand_total fun v hv => ?_
  have hlt := (h.coherent.inNodes hP).feasible_lt v hv
  exact ⟨h.coherent.inRange hzero hbounded hroom hlt,
    hhint.filtersAny_total (h.coherent.inNodes hP).node_lt hlt best⟩

/-- The next visit of a route that beats the incumbent is not pruned. -/
theorem Level.exists_expanded (h : Level P most infer n s) (hP : P.WellFormed) (hone : P.OneToOne)
    (hnonneg : ∀ a b, a < P.size → b < P.size → 0 ≤ P.cost a b) (hn : n < P.size - 1)
    {hint : Option Assignment} (hhint : Fits P most infer (s.route <+: ·) hint) {best : Option Int}
    {next : List Visits} (he : expand P s hint best = .ok next)
    (hR : P.IsRoute R) (hpre : s.route <+: R)
    (hb : Cost.beats best (P.price infer R) = true) :
    ∃ t ∈ next, t.route <+: R := by
  obtain ⟨v, hv, hpre'⟩ := h.coherent.exists_next hP hR hpre (by rw [h.length]; omega)
  have hprice := Int.le_trans (h.coherent.cost_next_le hP hone hnonneg hR hv hpre')
    (Instance.routeCost_le_price infer (hnonneg _ _ hP.finish_lt hP.start_lt))
  have harc := hhint.not_filtered hR hpre hb (mem_arcs_of_append (by rwa [route_eq] at hpre'))
  exact ⟨_, mem_expand he hv (Cost.beats_of_le hprice hb) harc, by rwa [route_go]⟩

/-- **The search by visits is a formulation** if its relaxations and its expansions answer. -/
theorem formulation_of (hP : P.WellFormed) (hone : P.OneToOne)
    (hnonneg : ∀ a b, a < P.size → b < P.size → 0 ≤ P.cost a b)
    (hinfers : ∀ {n s}, Level P most infer n s →
      ∃ hint, s.inference = .ok hint ∧ Fits P most infer (s.route <+: ·) hint)
    (hexpands : ∀ {n s hint} best, Level P most infer n s → Fits P most infer (s.route <+: ·) hint →
      ∃ next, expand P s hint best = .ok next) :
    Formulation P most infer (domain P width false narrate) (fun s R => s.route <+: R) route
      (Level P most infer) (P.size - 1) where
  dual := rfl
  relax _ := rfl
  restrict _ := ⟨width, rfl⟩
  tall := by
    have hheight : (domain P width false narrate).height = 2 * P.size + 2 := rfl
    omega
  level_le h := by
    have hlen := h.coherent.length_le
    rw [h.length] at hlen
    omega
  solved_iff h := by
    have hsize := hP.start_lt
    refine (h.coherent.isSolved_iff hP).trans ?_
    rw [h.length]
    omega
  solution h hsolved :=
    ⟨h.coherent.isRoute_of_solved hP (List.isEmpty_iff.mp hsolved), h.coherent.cost⟩
  cost_le h hR hpre := by
    have hle := hR.routeCost_prefix_le hnonneg hpre
    rwa [← h.coherent.cost] at hle
  infers h := by
    obtain ⟨hint, hhint, hfits⟩ := hinfers h
    exact ⟨hint, width, bind_eq_ok_iff.mpr ⟨hint, hhint, rfl⟩, hfits⟩
  expands := hexpands
  leads h hfits he ht := by
    obtain ⟨v, hv, rfl⟩ := mem_of_expand he ht
    refine ⟨h.go hP hone hv hfits, fun R _ hpre => ?_⟩
    rw [route_go] at hpre
    exact (List.prefix_append _ _).trans hpre
  keeps h hn hfits he hR hpre hb := h.exists_expanded hP hone hnonneg hn hfits he hR hpre hb

/-- They do if the costs of the arcs are small. -/
theorem formulation (hP : P.WellFormed) (hone : P.OneToOne)
    (hnonneg : ∀ a b, a < P.size → b < P.size → 0 ≤ P.cost a b) (hbounded : P.Bounded most)
    (hmost : forbidden ≤ most) (hroom : (P.size + 1) * most ≤ Cost.greatest) :
    Formulation P most infer (domain P width false narrate) (fun s R => s.route <+: R) route
      (Level P most infer) (P.size - 1) :=
  formulation_of hP hone hnonneg (fun h => h.inference hP hmost)
    fun best h hfits => h.expand_total hP hbounded hmost hroom hfits best

end Visits

/-! ## Choices of successors -/

namespace Chains

variable {s : Chains} {width : Nat} {narrate : Bool}

/-- **Inference answers**, and what is inferred fits. -/
theorem fits_inference (hmost : forbidden ≤ most) (hP : P.WellFormed) (hd : Decides P order)
    (hs : Explored P order s) (hfits : Fits P most infer interest s.relaxation)
    (hle : ∀ R, P.IsRoute R → interest' R → interest R ∧ s.KeptBy R) :
    ∃ hint, s.inference order = .ok hint ∧ Fits P most infer interest' hint := by
  cases hrelax : s.relaxation with
  | none =>
    refine ⟨none, ?_, fits_none⟩
    rw [Chains.inference, hrelax]
  | some a =>
    obtain ⟨rfl, ha⟩ := hfits a hrelax
    obtain ⟨x, hx, hserves⟩ := exists_inference hmost hP hd hs hrelax ha hle
    exact ⟨some x, hx, fits_some hserves⟩

/-- **An expansion answers** if the costs of the arcs are small and the hint fits. -/
theorem Explored.expand_total (h : Explored P order s) (hd : Decides P order)
    (hbounded : P.Bounded most) (hmost : forbidden ≤ most)
    (hroom : (P.size + 1) * most ≤ Cost.greatest) {hint : Option Assignment}
    (hhint : Fits P most infer interest hint) (best : Option Int) :
    ∃ next, expand P order s hint best = .ok next := by
  have hzero : (0 : Int) ≤ most := Int.le_trans (by decide) hmost
  refine Chains.expand_total fun o t ho ht => ?_
  have hjoin := h.joins ho hd ht
  exact choose_total (h.inRange hzero hbounded hroom hjoin.lt hjoin.target_lt)
    (hhint.filtersAny_total hjoin.lt hjoin.target_lt best)

/-- A state with `n` successors chosen, with a relaxation that fits it. -/
structure Level (P : Instance) (order : List Nat) (most : Int) (infer : Bool) (n : Nat)
    (s : Chains) : Prop where
  explored : Explored P order s
  depth : s.depth = n
  relaxation : Fits P most infer s.KeptBy s.relaxation

theorem Level.inference (h : Level P order most infer n s) (hP : P.WellFormed)
    (hd : Decides P order) (hmost : forbidden ≤ most) :
    ∃ hint, s.inference order = .ok hint ∧ Fits P most infer s.KeptBy hint :=
  fits_inference hmost hP hd h.explored h.relaxation fun _ _ h => ⟨h, h⟩

theorem Level.tie (h : Level P order most infer n s) (hd : Decides P order) {o t : Nat}
    (ho : order[s.depth]? = some o) (ht : t ∈ s.candidates o) {hint : Option Assignment}
    (hhint : Fits P most infer s.KeptBy hint) :
    Level P order most infer (n + 1) (s.tie P (hint <|> s.relaxation) o t) where
  explored := h.explored.tie ho hd ht
  depth := by rw [tie_depth, h.depth]
  relaxation := (hhint.orElse h.relaxation).mono fun _ _ hkept =>
    ((h.explored.joins ho hd ht).keptBy_tie.mp hkept).1

/-- The successor that a route which beats the incumbent gives to the next node is not pruned. -/
theorem Level.exists_expanded (h : Level P order most infer n s) (hP : P.WellFormed)
    (hd : Decides P order) (hnonneg : ∀ a b, a < P.size → b < P.size → 0 ≤ P.cost a b)
    (hn : n < order.length) {hint : Option Assignment} (hhint : Fits P most infer s.KeptBy hint)
    {best : Option Int} {next : List Chains}
    (he : expand P order s hint best = .ok next) (hR : P.IsRoute R)
    (hkept : s.KeptBy R) (hb : Cost.beats best (P.price infer R) = true) :
    ∃ t ∈ next, t.KeptBy R := by
  have ho := List.getElem?_eq_getElem (h.depth ▸ hn)
  obtain ⟨t, ht, hot⟩ := h.explored.exists_candidate_arc ho hP hd hR hkept
  have hjoin := h.explored.joins ho hd ht
  have hkept' : ∀ relaxation, (s.tie P relaxation _ t).KeptBy R := fun _ =>
    hjoin.keptBy_tie.mpr ⟨hkept, hot⟩
  have htie : Explored P order (s.tie P none _ t) := h.explored.tie ho hd ht
  have hprice := Int.le_trans (htie.cost_le hnonneg hR (hkept' _))
    (Instance.routeCost_le_price infer (hnonneg _ _ hP.finish_lt hP.start_lt))
  have harc := hhint.not_filtered hR hkept hb hot
  exact ⟨_, mem_expand he ho ht (Cost.beats_of_le hprice hb) harc, hkept' _⟩

/-- **The search by successors is a formulation** if its relaxations and its expansions answer. -/
theorem formulation_of (hP : P.WellFormed) (hd : Decides P order)
    (hnonneg : ∀ a b, a < P.size → b < P.size → 0 ≤ P.cost a b)
    (hinfers : ∀ {n s}, Level P order most infer n s →
      ∃ hint, s.inference order = .ok hint ∧ Fits P most infer s.KeptBy hint)
    (hexpands : ∀ {n s hint} best, Level P order most infer n s →
      Fits P most infer s.KeptBy hint → ∃ next, expand P order s hint best = .ok next) :
    Formulation P most infer (domain P order width narrate) (fun s R => s.KeptBy R)
      (fun s => s.route P) (Level P order most infer) order.length where
  dual := rfl
  relax _ := rfl
  restrict _ := ⟨width, rfl⟩
  tall := by
    have hheight : (domain P order width narrate).height = P.size + 1 := rfl
    have := hd.length hP
    omega
  level_le h := by
    have := h.explored.depth
    have := hd.length hP
    have := h.depth
    omega
  solved_iff h := h.depth ▸ h.explored.isSolved_iff_depth hP hd
  solution h hsolved := by
    obtain ⟨hroute, hcost, -⟩ := h.explored.isRoute_of_solved hP hsolved
    exact ⟨hroute, hcost⟩
  cost_le h hR hkept := h.explored.cost_le hnonneg hR hkept
  infers h := by
    obtain ⟨hint, hhint, hfits⟩ := hinfers h
    exact ⟨hint, width, bind_eq_ok_iff.mpr ⟨hint, hhint, rfl⟩, hfits⟩
  expands := hexpands
  leads h hfits he hu := by
    obtain ⟨o, t, ho, ht, rfl⟩ := mem_of_expand he hu
    exact ⟨h.tie hd ho ht hfits, fun _ _ hkept =>
      ((h.explored.joins ho hd ht).keptBy_tie.mp hkept).1⟩
  keeps h hn hfits he hR hkept hb := h.exists_expanded hP hd hnonneg hn hfits he hR hkept hb

/-- They do if the costs of the arcs are small. -/
theorem formulation (hP : P.WellFormed) (hd : Decides P order)
    (hnonneg : ∀ a b, a < P.size → b < P.size → 0 ≤ P.cost a b) (hbounded : P.Bounded most)
    (hmost : forbidden ≤ most) (hroom : (P.size + 1) * most ≤ Cost.greatest) :
    Formulation P most infer (domain P order width narrate) (fun s R => s.KeptBy R)
      (fun s => s.route P) (Level P order most infer) order.length :=
  formulation_of hP hd hnonneg (fun h => h.inference hP hd hmost)
    fun best h hfits => h.explored.expand_total hd hbounded hmost hroom hfits best

end Chains

/-! ## Searches with inference and without -/

/-- With inference (from `r`) and without (from `r'`), the search returns a route that it claims to
be optimal. The one without is a cheapest route, and the other one costs more by the arc back at
most. -/
def Agrees (P : Instance) {σ : Type} (D : Domain σ Assignment) (routeOf : σ → List Nat) (r r' : σ)
    (config : Config) (clock clock' : Nat → Nat → Nat) : Prop :=
  ∃ rounds, ∀ fuel, rounds ≤ fuel → ∃ R R', Returns P D routeOf r config clock fuel R ∧
    Returns P D routeOf r' config clock' fuel R' ∧
    (∀ Q, P.IsRoute Q → P.routeCost R' ≤ P.routeCost Q) ∧
    P.routeCost R ≤ P.routeCost R' + P.cost P.finish P.start

theorem Formulation.agrees {σ : Type} {D : Domain σ Assignment} {interest : σ → List Nat → Prop}
    {routeOf : σ → List Nat} {level level' : Nat → σ → Prop} {depth : Nat} {r r' : σ}
    (h : Formulation P most true D interest routeOf level depth)
    (h' : Formulation P most false D interest routeOf level' depth)
    (hclosing : 0 ≤ P.cost P.finish P.start) (hr : level 0 r) (hr' : level' 0 r')
    (hroute : ∃ R, P.IsRoute R) (hall : ∀ R, P.IsRoute R → interest r R ∧ interest r' R)
    (config : Config) (hconfig : config.Unlimited) (clock clock' : Nat → Nat → Nat) :
    Agrees P D routeOf r r' config clock clock' := by
  obtain ⟨Q, hQ⟩ := hroute
  obtain ⟨rounds, hrounds⟩ := h.returns hclosing hr ⟨Q, hQ, (hall Q hQ).1⟩ config hconfig clock
  obtain ⟨rounds', hrounds'⟩ :=
    h'.returns hclosing hr' ⟨Q, hQ, (hall Q hQ).2⟩ config hconfig clock'
  refine ⟨max rounds rounds', fun fuel hfuel => ?_⟩
  obtain ⟨R, hR, hle⟩ := hrounds fuel (Nat.le_trans (Nat.le_max_left ..) hfuel)
  obtain ⟨R', hR', hle'⟩ := hrounds' fuel (Nat.le_trans (Nat.le_max_right ..) hfuel)
  obtain ⟨-, -, -, -, -, -, -, hroute', -⟩ := id hR'
  exact ⟨R, R', hR, hR', fun Q hQ => hle' Q hQ (hall Q hQ).2, hle R' hroute' (hall R' hroute').1⟩

section Agrees

variable (hP : P.WellFormed) (hnonneg : ∀ a b, a < P.size → b < P.size → 0 ≤ P.cost a b)
  (hbounded : P.Bounded most) (hmost : forbidden ≤ most)
  (hroom : (P.size + 1) * most ≤ Cost.greatest) (hroute : ∃ R, P.IsRoute R) {a : Assignment}
  (ha : P.relaxation = .ok a) (hserves : Serves P most (fun _ => True) a) (width : Nat)
  (narrate : Bool) (config : Config) (hconfig : config.Unlimited) (clock clock' : Nat → Nat → Nat)

include hP hnonneg hbounded hmost hroom hroute ha hserves hconfig

theorem Visits.agrees (hreq : P.pickups ≠ []) (hone : P.OneToOne) :
    ∃ r r', root P true = .ok r ∧ root P false = .ok r' ∧
      Agrees P (domain P width false narrate) route r r' config clock clock' := by
  have hlevel : ∀ {infer relaxation}, Fits P most infer (fun _ => True) relaxation →
      Level P most infer 0 ⟨P.start, [], P.pickups, 0, relaxation⟩ :=
    fun hfits => ⟨coherent_root hP hreq, rfl, hfits.mono fun _ _ _ => trivial⟩
  have hpre : ∀ R, P.IsRoute R → [P.start] <+: R := fun R hR => by
    obtain ⟨l, rfl⟩ := List.head?_eq_some_iff.mp hR.first
    exact ⟨l, rfl⟩
  refine ⟨⟨P.start, [], P.pickups, 0, some a⟩, ⟨P.start, [], P.pickups, 0, none⟩, ?_, rfl, ?_⟩
  · rw [root, ha]
    rfl
  · exact (formulation hP hone hnonneg hbounded hmost hroom).agrees
      (formulation hP hone hnonneg hbounded hmost hroom)
      (hnonneg _ _ hP.finish_lt hP.start_lt) (hlevel (fits_some hserves)) (hlevel fits_none) hroute
      (fun R hR => ⟨hpre R hR, hpre R hR⟩) config hconfig clock clock'

theorem Chains.agrees (rule : DecisionRule) :
    ∃ r r', root P true = .ok r ∧ root P false = .ok r' ∧
      Agrees P (domain P (decisionOrder P rule) width narrate) (fun s => s.route P) r r' config
        clock clock' := by
  have hd := decides_decisionOrder P rule
  have hlevel : ∀ {infer relaxation}, Fits P most infer (fun _ => True) relaxation →
      Level P (decisionOrder P rule) most infer 0 (bare P relaxation) :=
    fun hfits => ⟨explored_bare hP _, rfl, hfits.mono fun _ _ _ => trivial⟩
  refine ⟨bare P (some a), bare P none, ?_, rfl, ?_⟩
  · rw [root, ha]
    rfl
  · exact (formulation hP hd hnonneg hbounded hmost hroom).agrees
      (formulation hP hd hnonneg hbounded hmost hroom) (hnonneg _ _ hP.finish_lt hP.start_lt)
      (hlevel (fits_some hserves)) (hlevel fits_none) hroute
      (fun R _ => ⟨keptBy_bare, keptBy_bare⟩) config hconfig clock clock'

end Agrees

/-- **Inference changes the answer by the arc back at most**: with inference and without, in both
formulations and at any width, a search without budgets ends, and returns a route that it claims to
be optimal. Without inference that is a cheapest route; with inference, it costs more by at most the
arc from the end depot back to the start, so that the answers are equally good if this arc is
free. -/
theorem inference_agrees {d : Draft} (htyped : d.Typed) (hP : Instance.ofDraft d = .ok P)
    (hreq : P.pickups ≠ []) (hone : P.OneToOne)
    (hnonneg : ∀ a b, a < P.size → b < P.size → 0 ≤ P.cost a b) (hbounded : P.Bounded most)
    (hroom : 4 * (P.size + 1) * max most forbidden ≤ Cost.greatest) (width : Nat) (narrate : Bool)
    (config : Config) (hconfig : config.Unlimited) (clock clock' : Nat → Nat → Nat) :
    (∃ r r', Visits.root P true = .ok r ∧ Visits.root P false = .ok r' ∧
      Agrees P (Visits.domain P width false narrate) Visits.route r r' config clock clock') ∧
    ∀ rule, ∃ r r', Chains.root P true = .ok r ∧ Chains.root P false = .ok r' ∧
      Agrees P (Chains.domain P (Chains.decisionOrder P rule) width narrate)
        (fun s => s.route P) r r' config clock clock' := by
  have hwf := Instance.wellFormed_of_ofDraft htyped hP
  have hmost : forbidden ≤ max most forbidden := Int.le_max_right ..
  have hbounded' : P.Bounded (max most forbidden) := hbounded.mono (Int.le_max_left ..)
  have hroom' := Assignment.room_for_routes hroom
  obtain ⟨Q, hQ, -⟩ := (Chains.coherent_bare hwf none).exists_route hwf
  obtain ⟨a, ha, hserves⟩ := Assignment.serves_relaxation hwf hreq hbounded hroom
  exact ⟨Visits.agrees hwf hnonneg hbounded' hmost hroom' ⟨Q, hQ⟩ ha hserves width narrate config
      hconfig clock clock' hreq hone,
    Chains.agrees hwf hnonneg hbounded' hmost hroom' ⟨Q, hQ⟩ ha hserves width narrate config hconfig
      clock clock'⟩

/-- A way back that costs 100 may make the answers differ by as much. -/
theorem dearReturn_agrees : Instance.dearReturnDraft.Typed ∧
    Instance.ofDraft Instance.dearReturnDraft = .ok Instance.dearReturn ∧
    Instance.dearReturn.pickups ≠ [] ∧ Instance.dearReturn.OneToOne ∧
    (∀ a b, a < Instance.dearReturn.size → b < Instance.dearReturn.size →
      0 ≤ Instance.dearReturn.cost a b) ∧ Instance.dearReturn.Bounded 100 ∧
    4 * (Instance.dearReturn.size + 1) * max 100 forbidden ≤ Cost.greatest ∧
    (⟨1, 1, 0, 0⟩ : Config).Unlimited ∧
    ∃ r r', Visits.root Instance.dearReturn true = .ok r ∧
      Visits.root Instance.dearReturn false = .ok r' ∧
      Agrees Instance.dearReturn (Visits.domain Instance.dearReturn 1 false false) Visits.route r r'
        ⟨1, 1, 0, 0⟩ (fun _ _ => 0) (fun _ _ => 0) := by
  have hreq : Instance.dearReturn.pickups ≠ [] := by decide
  have hroom : 4 * (Instance.dearReturn.size + 1) * max 100 forbidden ≤ Cost.greatest := by decide
  exact ⟨Instance.typed_dearReturn, Instance.ofDraft_dearReturn, hreq, Instance.oneToOne_dearReturn,
    Instance.cost_dearReturn_nonneg, Instance.bounded_dearReturn, hroom, ⟨rfl, rfl⟩,
    (inference_agrees Instance.typed_dearReturn Instance.ofDraft_dearReturn hreq
      Instance.oneToOne_dearReturn Instance.cost_dearReturn_nonneg Instance.bounded_dearReturn hroom
      1 false ⟨1, 1, 0, 0⟩ ⟨rfl, rfl⟩ (fun _ _ => 0) fun _ _ => 0).1⟩

/-! ### Where the answers differ -/

/-- How a search ends that bounds one node a round, and what its incumbent costs. -/
def outcome {σ : Type} (D : Domain σ Assignment) (r : σ) (fuel : Nat) :
    Except Fault Ending × Option Int :=
  let (s, ending) := (Search.start r ⟨1, 1, 0, 0⟩).minimize D (fun _ _ => 0) fuel
  (ending, s.best D)

section Outcome

variable {σ : Type} {D : Domain σ Assignment} {r : σ} {fuel fuel' : Nat} {c : Option Int}

/-- A search that ends early on ends so with more fuel. -/
theorem outcome_eq {s : Search σ Assignment} (h : outcome D r fuel = (.ok .exhausted, c))
    (hle : fuel ≤ fuel')
    (hmin : (Search.start r ⟨1, 1, 0, 0⟩).minimize D (fun _ _ => 0) fuel' = (s, .ok .exhausted)) :
    s.best D = c := by
  have hmin' : (Search.start r ⟨1, 1, 0, 0⟩).minimize D (fun _ _ => 0) fuel =
      (((Search.start r ⟨1, 1, 0, 0⟩).minimize D (fun _ _ => 0) fuel).1, .ok .exhausted) :=
    Prod.ext rfl (congrArg Prod.fst h)
  cases (Search.minimize_of_le hmin' hle).symm.trans hmin
  exact congrArg Prod.snd h

theorem Formulation.Returns.cost_eq {routeOf : σ → List Nat}
    (h : Returns P D routeOf r ⟨1, 1, 0, 0⟩ (fun _ _ => 0) fuel' R)
    (hout : outcome D r fuel = (.ok .exhausted, c)) (hle : fuel ≤ fuel') :
    c = some (P.routeCost R) := by
  obtain ⟨s, p, hmin, -, hp, -, -, -, hcost⟩ := h
  rw [← outcome_eq hout hle hmin, Search.best, hp, Option.map_some, hcost]

end Outcome

namespace Visits

/-- **A dear way back changes the answer**: with inference, the narrow search returns a route of
cost 5 and claims that it is optimal, while without inference it finds the one of cost 1. The first
route that its restriction comes to costs 5, and the bound on closed routes is more than that. -/
theorem dearReturn_disagrees : ¬∃ r r', root Instance.dearReturn true = .ok r ∧
    root Instance.dearReturn false = .ok r' ∧ ∃ rounds, ∀ fuel, rounds ≤ fuel →
      ∃ R R', Returns Instance.dearReturn (domain Instance.dearReturn 1 false false) route r
          ⟨1, 1, 0, 0⟩ (fun _ _ => 0) fuel R ∧
        Returns Instance.dearReturn (domain Instance.dearReturn 1 false false) route r'
          ⟨1, 1, 0, 0⟩ (fun _ _ => 0) fuel R' ∧
        Instance.dearReturn.routeCost R = Instance.dearReturn.routeCost R' := by
  rintro ⟨r, r', hr, hr', rounds, h⟩
  obtain ⟨_, hrelaxation, rfl⟩ := root_eq_ok_iff.mp hr
  obtain ⟨_, hnone, rfl⟩ := root_eq_ok_iff.mp hr'
  obtain ⟨a, ha, rfl⟩ := map_eq_ok_iff.mp hrelaxation
  cases hnone
  -- the first node is all that is bounded, by the value of the assignment alone
  obtain ⟨costs, rowDuals, columnDuals, columns, value⟩ := a
  have hvalue : Instance.dearReturn.relaxation.map Assignment.value = .ok 101 := by decide +kernel
  rw [ha] at hvalue
  cases hvalue
  have hwith : outcome (domain Instance.dearReturn 1 false false)
      ⟨0, [], [1, 3], 0, some ⟨costs, rowDuals, columnDuals, columns, 101⟩⟩ 4 =
        (.ok .exhausted, some 5) := by cbv
  have hwithout : outcome (domain Instance.dearReturn 1 false false) ⟨0, [], [1, 3], 0, none⟩ 4 =
      (.ok .exhausted, some 1) := by cbv
  obtain ⟨R, R', hR, hR', heq⟩ := h (max rounds 4) (Nat.le_max_left ..)
  have hcost := hR.cost_eq hwith (Nat.le_max_right ..)
  have hcost' := hR'.cost_eq hwithout (Nat.le_max_right ..)
  rw [Option.some.injEq] at hcost hcost'
  omega

end Visits

end Fathom.Routing
