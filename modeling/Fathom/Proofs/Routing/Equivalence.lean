import Fathom.Proofs.Optimality
import Fathom.Proofs.Routing.Agreement
import Fathom.Proofs.Routing.Continuation

/-!
# The two formulations against each other

Without inference, the search by visits and the search by successors both return a cheapest route,
hence routes of equal cost (`formulations_agree`). No state costs more than some route then, so that
nothing overflows as long as the routes themselves can be paid for (`Instance.Payable`).

The search by visits needs a request, and deliveries of one pickup each. Without any request its
root has nowhere to go: it counts as solved, and the search returns the route that stays at the
start depot. If two pickups share a delivery, that may be visited twice, or the end depot never
(`degenerate_disagree`).

Results:
* `Visits.plain_formulation`, `Chains.plain_formulation`: without inference, both ways to search are
  formulations;
* `formulations_agree`: what the two searches return.
-/

namespace Fathom

/-! ## Searches from a solution -/

/-- **A search from a solution ends with it**, if nothing comes after it and no diagram but a
restriction is built for it. -/
theorem Search.minimize_of_solved {σ δ : Type} {D : Domain σ δ} {root : σ}
    (hsolved : D.solved root = true) (hends : ∀ dual best, D.expand root dual best = .ok [])
    (hinfer : D.infer root = .ok none) (hrelax : D.relax root = .ok none)
    (hrestrict : ∃ width,
      D.restrict root = .ok (some (Diagram.root root [Merger.cheapest D.cost] width)))
    (htall : 0 < D.height) (config : Config) (hconfig : config.Unlimited)
    (clock : Nat → Nat → Nat) : ∃ rounds, ∀ fuel, rounds ≤ fuel → ∃ s : Search σ δ,
      (Search.start root config).minimize D clock fuel = (s, .ok .exhausted) ∧
      s.optimal = true ∧ s.incumbent = some root := by
  have hlevelled : Levelled D (fun n s => n = 0 ∧ s = root) 0 fun s c => D.cost s = c := by
    constructor
    · rintro n s ⟨rfl, -⟩
      exact Nat.le_refl 0
    · rintro n s ⟨rfl, rfl⟩
      exact iff_of_true hsolved rfl
    · rintro n s c - rfl
      exact Int.le_refl _
    · rintro n s ⟨-, rfl⟩
      exact hrestrict
    · rintro n s dual best ⟨-, rfl⟩ -
      exact ⟨[], hends dual best⟩
    · rintro n s dual best next t ⟨-, rfl⟩ - he ht
      rw [hends, Except.ok.injEq] at he
      rw [← he] at ht
      cases ht
    · rintro n s dual best next c - hn
      exact absurd hn (Nat.not_lt_zero n)
    · exact htall
  have hadmissible : Admissible D (fun n s => n = 0 ∧ s = root) 0 fun s c => D.cost s = c :=
    admissible_of_bare (fun hs => hs.2 ▸ hinfer) fun hs => hs.2 ▸ hrelax
  obtain ⟨rounds, hrounds⟩ := Search.minimize_unlimited (hlevelled.trusted hadmissible)
    (hlevelled.answering hadmissible) ⟨0, rfl, rfl⟩ config hconfig clock
  refine ⟨rounds, fun fuel hfuel => ?_⟩
  obtain ⟨s, hmin, hsome, hnone⟩ := hrounds fuel hfuel
  cases hp : s.incumbent with
  | none => exact absurd rfl ((hnone hp).2 (D.cost root))
  | some p =>
    obtain ⟨hoptimal, ⟨-, -, rfl⟩, -, -⟩ := hsome p hp
    exact ⟨s, hmin, hoptimal, hp⟩

namespace Routing

open Formulation (Returns)

variable {P : Instance} {R : List Nat} {order : List Nat} {infer : Bool}

/-! ## Costs of routes -/

namespace Instance

/-- No route costs more than the greatest cost. -/
def Payable (P : Instance) : Prop := ∀ R, P.IsRoute R → P.routeCost R ≤ Cost.greatest

theorem routeCost_nonneg (hnonneg : ∀ a b, a < P.size → b < P.size → 0 ≤ P.cost a b)
    (hR : ∀ a ∈ R, a < P.size) : 0 ≤ P.routeCost R := by
  refine List.sum_nonneg fun c hc => ?_
  obtain ⟨⟨a, b⟩, harc, rfl⟩ := List.mem_map.mp hc
  exact hnonneg a b (hR a (mem_left_of_arc harc)) (hR b (mem_right_of_arc harc))

/-- Routes can be paid for if the costs of the arcs are small. -/
theorem Bounded.payable {most : Int} (h : P.Bounded most) (hmost : 0 ≤ most)
    (hroom : P.size * most ≤ Cost.greatest) : P.Payable := by
  intro R hR
  have hsum := sum_bounds fun arc (harc : arc ∈ arcs R) =>
    h _ _ (hR.mem_iff.mp (mem_left_of_arc harc)) (hR.mem_iff.mp (mem_right_of_arc harc))
  have hlen : (arcs R).length ≤ P.size := by
    rw [arcs, List.length_zip, hR.length]
    exact Nat.min_le_left ..
  calc P.routeCost R ≤ (arcs R).length * most := hsum.2
    _ ≤ P.size * most := Int.mul_le_mul_of_nonneg_right (Int.ofNat_le.mpr hlen) hmost
    _ ≤ Cost.greatest := hroom

/-- What costs no more than a route is in range. -/
theorem Payable.inRange (h : P.Payable) {c : Int} (hc : 0 ≤ c) (hR : P.IsRoute R)
    (hle : c ≤ P.routeCost R) : Cost.InRange c :=
  ⟨Int.le_trans (by decide) hc, Int.le_trans hle (h R hR)⟩

end Instance

/-- Without inference there are no relaxations. -/
theorem Fits.eq_none {most : Int} {interest : List Nat → Prop} {hint : Option Assignment}
    (h : Fits P most false interest hint) : hint = none :=
  Option.eq_none_iff_forall_ne_some.mpr fun a ha => Bool.false_ne_true (h a ha).1

/-! ## Searches without inference -/

namespace Visits

variable {s : Visits} {v width n : Nat} {narrate : Bool}

/-- **No visit overflows** as long as the routes can be paid for. -/
theorem Coherent.inRange_of_payable (h : s.Coherent P) (hP : P.WellFormed) (hone : P.OneToOne)
    (hnonneg : ∀ a b, a < P.size → b < P.size → 0 ≤ P.cost a b) (hpay : P.Payable)
    (hv : v ∈ s.feasible) : Cost.InRange (s.cost + P.cost s.node v) := by
  have hgo : Coherent P (s.go P none v) := h.go hP hone hv
  have hcost : s.cost + P.cost s.node v = P.routeCost (s.go P none v).route := hgo.cost
  obtain ⟨R, hR, hpre⟩ := hgo.exists_route hP hone
  rw [hcost]
  exact hpay.inRange (Instance.routeCost_nonneg hnonneg hgo.lt) hR
    (hR.routeCost_prefix_le hnonneg hpre)

/-- **Without inference, the search by visits is a formulation.** -/
theorem plain_formulation (hP : P.WellFormed) (hone : P.OneToOne)
    (hnonneg : ∀ a b, a < P.size → b < P.size → 0 ≤ P.cost a b) (hpay : P.Payable) :
    Formulation P 0 false (domain P width false narrate) (fun s R => s.route <+: R) route
      (Level P 0 false) (P.size - 1) := by
  refine formulation_of hP hone hnonneg (fun h => ⟨none, ?_, fits_none⟩) fun best h hfits => ?_
  · rw [Visits.inference, h.relaxation.eq_none]
  · rw [hfits.eq_none]
    exact expand_total fun v hv =>
      ⟨h.coherent.inRange_of_payable hP hone hnonneg hpay hv, false, rfl⟩

/-- **The search by visits returns a cheapest route** if there is a request. -/
theorem returns_cheapest (hP : P.WellFormed) (hreq : P.pickups ≠ []) (hone : P.OneToOne)
    (hnonneg : ∀ a b, a < P.size → b < P.size → 0 ≤ P.cost a b) (hpay : P.Payable) (width : Nat)
    (narrate : Bool) (config : Config) (hconfig : config.Unlimited) (clock : Nat → Nat → Nat) :
    ∃ rounds, ∀ fuel, rounds ≤ fuel → ∃ R,
      Returns P (domain P width false narrate) route ⟨P.start, [], P.pickups, 0, none⟩ config clock
        fuel R ∧ ∀ Q, P.IsRoute Q → P.routeCost R ≤ P.routeCost Q := by
  have hroot : Coherent P ⟨P.start, [], P.pickups, 0, none⟩ := coherent_root hP hreq
  have hpre : ∀ Q, P.IsRoute Q → [P.start] <+: Q := fun Q hQ => by
    obtain ⟨rest, rfl⟩ := List.head?_eq_some_iff.mp hQ.first
    exact ⟨rest, rfl⟩
  obtain ⟨Q, hQ, -⟩ := hroot.exists_route hP hone
  obtain ⟨rounds, hrounds⟩ := (plain_formulation hP hone hnonneg hpay).returns
    (hnonneg _ _ hP.finish_lt hP.start_lt) ⟨hroot, rfl, fits_none⟩ ⟨Q, hQ, hpre Q hQ⟩ config hconfig
    clock
  refine ⟨rounds, fun fuel hfuel => ?_⟩
  obtain ⟨R, hR, hle⟩ := hrounds fuel hfuel
  exact ⟨R, hR, fun Q hQ => hle Q hQ (hpre Q hQ)⟩

/-- Without requests, the search by visits takes its root for a solution. -/
theorem stays_at_start (hreq : P.pickups = []) (width : Nat) (narrate : Bool) (config : Config)
    (hconfig : config.Unlimited) (clock : Nat → Nat → Nat) :
    ∃ rounds, ∀ fuel, rounds ≤ fuel → ∃ s : Search Visits Assignment,
      (Search.start ⟨P.start, [], P.pickups, 0, none⟩ config).minimize
        (domain P width false narrate) clock fuel = (s, .ok .exhausted) ∧
      s.optimal = true ∧ s.incumbent = some ⟨P.start, [], P.pickups, 0, none⟩ := by
  rw [hreq]
  exact Search.minimize_of_solved rfl (fun _ _ => rfl) rfl rfl ⟨width, rfl⟩ (Nat.succ_pos _) config
    hconfig clock

end Visits

namespace Chains

variable {s : Chains} {o t width : Nat} {narrate : Bool}

/-- **No choice overflows** as long as the routes can be paid for. -/
theorem Explored.inRange_of_payable (h : Explored P order s) (hP : P.WellFormed)
    (hd : Decides P order) (hnonneg : ∀ a b, a < P.size → b < P.size → 0 ≤ P.cost a b)
    (hpay : P.Payable) (ho : order[s.depth]? = some o) (ht : t ∈ s.candidates o) :
    Cost.InRange (s.cost + P.cost o t) := by
  have htie : Explored P order (s.tie P none o t) := h.tie ho hd ht
  obtain ⟨R, hR, hkept⟩ := htie.coherent.exists_route hP
  have hcost : 0 ≤ (s.tie P none o t).cost := by
    rw [htie.coherent.cost]
    refine List.sum_nonneg fun c hc => ?_
    obtain ⟨a, ha, rfl⟩ := List.mem_map.mp hc
    unfold arcCost
    cases hb : (s.tie P none o t).successor a with
    | none => exact Int.le_refl 0
    | some b => exact hnonneg a b (List.mem_range.mp ha) (htie.coherent.successor_lt hb)
  exact hpay.inRange hcost hR (htie.cost_le hnonneg hR hkept)

/-- **Without inference, the search by successors is a formulation.** -/
theorem plain_formulation (hP : P.WellFormed) (hd : Decides P order)
    (hnonneg : ∀ a b, a < P.size → b < P.size → 0 ≤ P.cost a b) (hpay : P.Payable) :
    Formulation P 0 false (domain P order width narrate) (fun s R => s.KeptBy R)
      (fun s => s.route P) (Level P order 0 false) order.length := by
  refine formulation_of hP hd hnonneg (fun h => ⟨none, ?_, fits_none⟩) fun best h hfits => ?_
  · rw [Chains.inference, h.relaxation.eq_none]
  · rw [hfits.eq_none]
    exact expand_total fun o t ho ht => choose_total
      (h.explored.inRange_of_payable hP hd hnonneg hpay ho ht) ⟨false, rfl⟩

/-- **The search by successors returns a cheapest route.** -/
theorem returns_cheapest (hP : P.WellFormed) (hd : Decides P order)
    (hnonneg : ∀ a b, a < P.size → b < P.size → 0 ≤ P.cost a b) (hpay : P.Payable) (width : Nat)
    (narrate : Bool) (config : Config) (hconfig : config.Unlimited) (clock : Nat → Nat → Nat) :
    ∃ rounds, ∀ fuel, rounds ≤ fuel → ∃ R,
      Returns P (domain P order width narrate) (fun s => s.route P) (bare P none) config clock
        fuel R ∧ ∀ Q, P.IsRoute Q → P.routeCost R ≤ P.routeCost Q := by
  obtain ⟨Q, hQ, hkept⟩ := (coherent_bare hP none).exists_route hP
  obtain ⟨rounds, hrounds⟩ := (plain_formulation hP hd hnonneg hpay).returns
    (hnonneg _ _ hP.finish_lt hP.start_lt) ⟨explored_bare hP none, rfl, fits_none⟩ ⟨Q, hQ, hkept⟩
    config hconfig clock
  refine ⟨rounds, fun fuel hfuel => ?_⟩
  obtain ⟨R, hR, hle⟩ := hrounds fuel hfuel
  exact ⟨R, hR, fun Q hQ => hle Q hQ keptBy_bare⟩

end Chains

/-! ## What the two searches return -/

theorem Formulation.Returns.isRoute {σ : Type} {D : Domain σ Assignment} {routeOf : σ → List Nat}
    {r : σ} {config : Config} {clock : Nat → Nat → Nat} {fuel : Nat}
    (h : Returns P D routeOf r config clock fuel R) : P.IsRoute R := by
  obtain ⟨-, -, -, -, -, -, -, hR, -⟩ := h
  exact hR

/-- Without requests there is one route, from depot to depot. -/
theorem Instance.IsRoute.eq_depots (hR : P.IsRoute R) (hP : P.WellFormed) (hreq : P.pickups = []) :
    R = [P.start, P.finish] := by
  have hdepots : ∀ a, a ∈ R ↔ a ∈ [P.start, P.finish] := by
    intro a
    rw [hR.mem_iff, List.mem_cons, List.mem_singleton]
    constructor
    · intro ha
      have hpickup : ∀ p, P.role? p ≠ some .pickup := fun p hp => by
        have : p ∈ P.pickups := List.mem_filter.mpr
          ⟨List.mem_range.mpr (hP.lt_of_role hp), Instance.role_of_isPickup.mpr hp⟩
        rw [hreq] at this
        cases this
      obtain h | h | h | h := hP.role_cases ha
      · exact .inl h
      · exact .inr h
      · exact absurd h (hpickup a)
      · obtain ⟨p, hp⟩ := hP.exists_pickup h
        exact absurd (Instance.role_of_deliveryOf hp) (hpickup p)
    · rintro (rfl | rfl)
      · exact hP.start_lt
      · exact hP.finish_lt
  have hperm : R.Perm [P.start, P.finish] :=
    (List.perm_ext_iff_of_nodup hR.nodup (by simpa using hP.start_ne_finish)).mpr hdepots
  obtain ⟨rest, rfl⟩ := List.head?_eq_some_iff.mp hR.first
  exact congrArg _ (List.perm_singleton.mp hperm.cons_inv)

/-- **The two formulations agree** without inference: whatever the widths, the decision order, the
configurations and the clocks, both searches end, and if there is a request and no delivery is
shared, the routes that they return are equally cheap. The search by successors returns a cheapest
route in any case. Without requests the search by visits does not return that route, which goes from
depot to depot, but the one that stays at the start depot. -/
theorem formulations_agree {d : Draft} (htyped : d.Typed) (hP : Instance.ofDraft d = .ok P)
    (hnonneg : ∀ a b, a < P.size → b < P.size → 0 ≤ P.cost a b) (hpay : P.Payable)
    (rule : DecisionRule) (width width' : Nat) (narrate narrate' : Bool) (config config' : Config)
    (hconfig : config.Unlimited) (hconfig' : config'.Unlimited) (clock clock' : Nat → Nat → Nat) :
    let D := Visits.domain P width false narrate
    let D' := Chains.domain P (Chains.decisionOrder P rule) width' narrate'
    ∃ r r', Visits.root P false = .ok r ∧ Chains.root P false = .ok r' ∧
      ∃ rounds, ∀ fuel, rounds ≤ fuel → ∃ R',
        Returns P D' (fun s => s.route P) r' config' clock' fuel R' ∧
        (∀ Q, P.IsRoute Q → P.routeCost R' ≤ P.routeCost Q) ∧
        (P.pickups ≠ [] → P.OneToOne → ∃ R,
          Returns P D Visits.route r config clock fuel R ∧ P.routeCost R = P.routeCost R') ∧
        (P.pickups = [] → R' = [P.start, P.finish] ∧ ∃ s p,
          (Search.start r config).minimize D clock fuel = (s, .ok .exhausted) ∧
          s.optimal = true ∧ s.incumbent = some p ∧ D.solved p = true ∧ p.route = [P.start] ∧
          D.cost p = 0) := by
  have hwf := Instance.wellFormed_of_ofDraft htyped hP
  have hd := Chains.decides_decisionOrder P rule
  refine ⟨⟨P.start, [], P.pickups, 0, none⟩, Chains.bare P none, rfl, rfl, ?_⟩
  obtain ⟨rounds', hchains⟩ :=
    Chains.returns_cheapest hwf hd hnonneg hpay width' narrate' config' hconfig' clock'
  by_cases hreq : P.pickups = []
  · obtain ⟨rounds, hvisits⟩ := Visits.stays_at_start hreq width narrate config hconfig clock
    refine ⟨max rounds rounds', fun fuel hfuel => ?_⟩
    obtain ⟨R', hR', hle'⟩ := hchains fuel (Nat.le_trans (Nat.le_max_right ..) hfuel)
    obtain ⟨s, hmin, hoptimal, hs⟩ := hvisits fuel (Nat.le_trans (Nat.le_max_left ..) hfuel)
    refine ⟨R', hR', hle', fun hne => absurd hreq hne, fun _ => ?_⟩
    refine ⟨hR'.isRoute.eq_depots hwf hreq, s, _, hmin, hoptimal, hs, ?_, rfl, rfl⟩
    rw [hreq]
    rfl
  · by_cases hone : P.OneToOne
    · obtain ⟨rounds, hvisits⟩ :=
        Visits.returns_cheapest hwf hreq hone hnonneg hpay width narrate config hconfig clock
      refine ⟨max rounds rounds', fun fuel hfuel => ?_⟩
      obtain ⟨R', hR', hle'⟩ := hchains fuel (Nat.le_trans (Nat.le_max_right ..) hfuel)
      obtain ⟨R, hR, hle⟩ := hvisits fuel (Nat.le_trans (Nat.le_max_left ..) hfuel)
      exact ⟨R', hR', hle', fun _ _ => ⟨R, hR,
        Int.le_antisymm (hle R' hR'.isRoute) (hle' R hR.isRoute)⟩, fun hnil => absurd hnil hreq⟩
    · refine ⟨rounds', fun fuel hfuel => ?_⟩
      obtain ⟨R', hR', hle'⟩ := hchains fuel hfuel
      exact ⟨R', hR', hle', fun _ h => absurd h hone, fun hnil => absurd hnil hreq⟩

/-- With two requests, both searches return a cheapest route. -/
theorem dearReturn_equivalent : Instance.dearReturnDraft.Typed ∧
    Instance.ofDraft Instance.dearReturnDraft = .ok Instance.dearReturn ∧
    (∀ a b, a < Instance.dearReturn.size → b < Instance.dearReturn.size →
      0 ≤ Instance.dearReturn.cost a b) ∧ Instance.dearReturn.Payable ∧
    (⟨1, 1, 0, 0⟩ : Config).Unlimited ∧ (⟨4, 2, 0, 0⟩ : Config).Unlimited ∧
    ∃ r r', Visits.root Instance.dearReturn false = .ok r ∧
      Chains.root Instance.dearReturn false = .ok r' ∧
      ∃ rounds, ∀ fuel, rounds ≤ fuel → ∃ R R',
        Returns Instance.dearReturn (Visits.domain Instance.dearReturn 1 false false) Visits.route r
          ⟨1, 1, 0, 0⟩ (fun _ _ => 0) fuel R ∧
        Returns Instance.dearReturn
          (Chains.domain Instance.dearReturn (Chains.decisionOrder Instance.dearReturn .greedy) 3
            false) (fun s => s.route Instance.dearReturn) r' ⟨4, 2, 0, 0⟩ (fun _ _ => 0) fuel R' ∧
        Instance.dearReturn.routeCost R = Instance.dearReturn.routeCost R' := by
  have hpay : Instance.dearReturn.Payable :=
    Instance.bounded_dearReturn.payable (by decide) (by decide)
  refine ⟨Instance.typed_dearReturn, Instance.ofDraft_dearReturn, Instance.cost_dearReturn_nonneg,
    hpay, ⟨rfl, rfl⟩, ⟨rfl, rfl⟩, ?_⟩
  obtain ⟨r, r', hr, hr', rounds, hrounds⟩ := formulations_agree Instance.typed_dearReturn
    Instance.ofDraft_dearReturn Instance.cost_dearReturn_nonneg hpay .greedy 1 3 false false
    ⟨1, 1, 0, 0⟩ ⟨4, 2, 0, 0⟩ ⟨rfl, rfl⟩ ⟨rfl, rfl⟩ (fun _ _ => 0) fun _ _ => 0
  refine ⟨r, r', hr, hr', rounds, fun fuel hfuel => ?_⟩
  obtain ⟨R', hR', -, hserved, -⟩ := hrounds fuel hfuel
  obtain ⟨R, hR, hcost⟩ := hserved (by decide) Instance.oneToOne_dearReturn
  exact ⟨R, R', hR, hR', hcost⟩

/-! ### Where the answers differ -/

namespace Instance

/-- The two depots alone. -/
def depotsText : String :=
  "\x7b\"nodes\":[\"+0\",\"-0\"],\"edges\":[[0,5],[0,0]]\x7d"

/-- What the text decodes to. -/
def depots : Instance where
  name := ""
  comment := ""
  labels := #["+0", "-0"]
  roles := #[.start, .finish]
  partners := #[none, none]
  costs := #[#[0, 5], #[0, 0]]
  start := 0
  finish := 1

deriving instance DecidableEq for Instance

theorem ofText_of_toOption {text : String} {P : Instance} (h : (ofText text).toOption = some P) :
    ofText text = .ok P := by
  cases hP : ofText text with
  | error e =>
    rw [hP] at h
    cases h
  | ok Q =>
    rw [hP] at h
    exact congrArg Except.ok (Option.some.inj h)

theorem ofText_depots : ofText depotsText = .ok depots := ofText_of_toOption (by decide +kernel)

/-- Two pickups with one delivery. -/
def sharedText : String :=
  "\x7b\"nodes\":[\"+0\",\"+1\",\"+2\",\"-1\",\"-0\"]," ++
    "\"precedence\":\x7b\"+1\":\"-1\",\"+2\":\"-1\"\x7d," ++
    "\"edges\":[[0,1,1,1,1],[1,0,1,1,1],[1,1,0,1,1],[1,1,1,0,1],[1,1,1,1,0]]\x7d"

/-- What the text decodes to. -/
def shared : Instance where
  name := ""
  comment := ""
  labels := #["+0", "+1", "+2", "-1", "-0"]
  roles := #[.start, .pickup, .pickup, .delivery, .finish]
  partners := #[none, some 3, some 3, some 2, none]
  costs :=
    #[#[0, 1, 1, 1, 1], #[1, 0, 1, 1, 1], #[1, 1, 0, 1, 1], #[1, 1, 1, 0, 1], #[1, 1, 1, 1, 0]]
  start := 0
  finish := 4

theorem ofText_shared : ofText sharedText = .ok shared := ofText_of_toOption (by decide +kernel)

/-- Two pickups with one delivery, their entries in either order. -/
def sharedDraft (entries : List (String × String)) : Draft where
  name := ""
  comment := ""
  nodes := ["+0", "+1", "+2", "-1", "-0"]
  precedence := entries
  edges := [[0, 1, 1, 1, 1], [1, 0, 1, 1, 1], [1, 1, 0, 1, 1], [1, 1, 1, 0, 1], [1, 1, 1, 1, 0]]

theorem typed_shared : (sharedDraft [("+1", "-1"), ("+2", "-1")]).Typed where
  keys := by decide
  inRange := by decide

theorem ofDraft_shared : ofDraft (sharedDraft [("+1", "-1"), ("+2", "-1")]) = .ok shared := rfl

theorem cost_depots (a b : Nat) (ha : a < depots.size) (hb : b < depots.size) :
    0 ≤ depots.cost a b ∧ depots.cost a b ≤ 5 := by
  have hall : ∀ a < 2, ∀ b < 2, 0 ≤ depots.cost a b ∧ depots.cost a b ≤ 5 := by decide
  exact hall a ha b hb

theorem cost_shared (a b : Nat) (ha : a < shared.size) (hb : b < shared.size) :
    0 ≤ shared.cost a b ∧ shared.cost a b ≤ 1 := by
  have hall : ∀ a < 5, ∀ b < 5, 0 ≤ shared.cost a b ∧ shared.cost a b ≤ 1 := by decide
  exact hall a ha b hb

/-- No arc is cheaper than nothing, and the routes can be paid for. -/
theorem payable_of_cost {most : Int} (hmost : 0 ≤ most)
    (h : ∀ a b, a < P.size → b < P.size → 0 ≤ P.cost a b ∧ P.cost a b ≤ most)
    (hroom : P.size * most ≤ Cost.greatest) :
    (∀ a b, a < P.size → b < P.size → 0 ≤ P.cost a b) ∧ P.Payable := by
  have hbounded : P.Bounded most := fun a b ha hb => by
    have := h a b ha hb
    omega
  exact ⟨fun a b ha hb => (h a b ha hb).1, hbounded.payable hmost hroom⟩

end Instance

/-- The narrow searches that bound one node a round both end, with incumbents of equal cost or with
none. -/
def EquallyGood (P : Instance) (rule : DecisionRule) : Prop :=
  let D := Visits.domain P 1 false false
  let D' := Chains.domain P (Chains.decisionOrder P rule) 1 false
  ∃ r r', Visits.root P false = .ok r ∧ Chains.root P false = .ok r' ∧
    ∃ rounds, ∀ fuel, rounds ≤ fuel → ∃ s s',
      (Search.start r ⟨1, 1, 0, 0⟩).minimize D (fun _ _ => 0) fuel = (s, .ok .exhausted) ∧
      (Search.start r' ⟨1, 1, 0, 0⟩).minimize D' (fun _ _ => 0) fuel = (s', .ok .exhausted) ∧
      s.best D = s'.best D'

theorem EquallyGood.eq {rule : DecisionRule} {c c' : Option Int} (h : EquallyGood P rule)
    (fuel : Nat)
    (hvisits : outcome (Visits.domain P 1 false false) ⟨P.start, [], P.pickups, 0, none⟩ fuel =
      (.ok .exhausted, c))
    (hchains : outcome (Chains.domain P (Chains.decisionOrder P rule) 1 false)
      (Chains.bare P none) fuel = (.ok .exhausted, c')) : c = c' := by
  obtain ⟨r, r', hr, hr', rounds, hrounds⟩ := h
  cases hr
  cases hr'
  obtain ⟨s, s', hmin, hmin', heq⟩ := hrounds (max rounds fuel) (Nat.le_max_left ..)
  rw [← outcome_eq hvisits (Nat.le_max_right ..) hmin, heq,
    outcome_eq hchains (Nat.le_max_right ..) hmin']

/-- **The answers differ on degenerate instances.** Between the depots alone, the search by visits
pays nothing where the way costs 5. With a shared delivery it visits the pickups and their delivery
and stops there, which saves the arc to the end depot. -/
theorem degenerate_disagree :
    (Instance.ofText Instance.depotsText = .ok Instance.depots ∧
      ((∀ a b, a < Instance.depots.size → b < Instance.depots.size →
        0 ≤ Instance.depots.cost a b) ∧ Instance.depots.Payable) ∧
      ¬EquallyGood Instance.depots .input) ∧
    (Instance.ofText Instance.sharedText = .ok Instance.shared ∧
      ((∀ a b, a < Instance.shared.size → b < Instance.shared.size →
        0 ≤ Instance.shared.cost a b) ∧ Instance.shared.Payable) ∧
      ¬EquallyGood Instance.shared .input) := by
  refine ⟨⟨Instance.ofText_depots, Instance.payable_of_cost (by decide) Instance.cost_depots
    (by decide), fun h => ?_⟩, Instance.ofText_shared, Instance.payable_of_cost (by decide)
    Instance.cost_shared (by decide), fun h => ?_⟩
  · have hne : (some 0 : Option Int) = some 5 := h.eq 4 (by cbv) (by cbv)
    cases hne
  · have hne : (some 3 : Option Int) = some 4 := h.eq 9 (by cbv) (by cbv)
    cases hne

end Routing

end Fathom
