import Fathom.Proofs.Routing.Decoding
import Fathom.Proofs.Routing.Folding
import Mathlib.Data.List.Permutation

/-!
# The layers of a relaxation of partial routes

The relaxation of a partial route expands layer by layer without hints and folds what exceeds the
width. `Covers` is what one layer keeps of the one before: some state of it lasts as long as the
routes that continue the partial route are incomplete, and a layer that is exact holds the next
stretch of each of them.

The bound that the best state gives is thus one for exact layers and the first one after them.
Further down it is not: a folded state goes on from the last node of the cheapest of its states, at
the cost of arcs that the routes through the others do not have (`dearReturn_overestimates`).

Results:
* `relaxation_layers`: no layer of a relaxation is empty before the routes are complete, and its
  best state costs no more than they do up to the first layer that is folded.
-/

namespace Fathom

/-- Without hints, the diagram is followed by `e` one layer further. -/
def Diagram.Unhinted {σ δ : Type} (S : Space σ δ) (d e : Diagram σ) : Prop :=
  (d.advance S none none).result = .ok e

namespace Routing.Visits

variable {P : Instance} {s t x : Visits} {a v k width : Nat} {R : List Nat} {narrate : Bool}
  {d e : Diagram Visits} {next : List Visits}

/-! ## One layer -/

/-- What a layer of the relaxation of `s` is made of, `k` layers below its root. -/
structure Covers (P : Instance) (s : Visits) (k : Nat) (d : Diagram Visits) : Prop where
  mergers : d.mergers = [fold]
  placeable : ∀ x ∈ d.layer.states, ∀ v ∈ x.feasible, Placeable P v
  /-- One of the states lasts to the end of the routes. -/
  lasting : ∃ x ∈ d.layer.states, Lasting P (P.size - (s.route.length + k)) x.feasible
  /-- An exact layer has lost no route. -/
  exact : d.layer.isExact = true → ∀ R, P.IsRoute R → s.route <+: R →
    s.route.length + k ≤ P.size → ∃ x ∈ d.layer.states, Coherent P x ∧ x.route <+: R ∧
      x.route.length = s.route.length + k

theorem Open.placeable (h : Open P s v) (hP : P.WellFormed) : Placeable P v := by
  obtain ⟨-, h | ⟨p, -, h⟩ | ⟨h, -⟩⟩ := h
  · exact .inl (Instance.role_of_isPickup.mpr h)
  · exact .inr (.inl (Instance.role_of_isDelivery.mpr (hP.delivers h)))
  · exact .inr (.inr h)

theorem placeable_feasibleAfter (hP : P.WellFormed) (hs : ∀ v ∈ s.feasible, Placeable P v)
    (ha : a ∈ s.feasibleAfter P v) : Placeable P a := by
  obtain h | ⟨h, -⟩ | h := mem_feasibleAfter ha
  · exact .inr (.inr h)
  · exact hs a h
  · exact .inr (.inl (Instance.role_of_isDelivery.mpr (hP.delivers h)))

theorem covers_root (hP : P.WellFormed) (hs : Coherent P s) :
    Covers P s 0 (Diagram.root s [fold] width) where
  mergers := rfl
  placeable x hx v hv := by
    obtain rfl := List.mem_singleton.mp hx
    exact ((hs.feasible v).mp hv).placeable hP
  lasting := ⟨s, List.mem_singleton.mpr rfl, hs.lasting hP⟩
  exact _ R _ hpre _ := ⟨s, List.mem_singleton.mpr rfl, hs, hpre, rfl⟩

/-- **A fold lasts as long as each of its states.** -/
theorem Lasting.fold {states : List Visits} (hx : x ∈ states) (h : Lasting P k x.feasible) :
    ∃ y ∈ Visits.fold states width, Lasting P k y.feasible := by
  by_cases hfits : width = 0 ∨ states.length ≤ width
  · rw [fold_of_fits hfits]
    exact ⟨x, hx, h⟩
  · obtain ⟨kept, first, folded, hperm, -, -, hfold⟩ := fold_eq hfits
    rw [hfold]
    obtain hx | hx := List.mem_append.mp (hperm.mem_iff.mpr hx)
    · exact ⟨x, List.mem_append_left _ hx, h⟩
    · obtain ⟨hnodup, hmem⟩ := mem_mayVisit (first :: folded)
      exact ⟨_, List.mem_append_right _ (List.mem_singleton.mpr rfl),
        h.of_subset (fun a ha => (hmem a).mpr ⟨x, hx, ha⟩) hnodup⟩

/-- What the next layer is made of. -/
theorem unhinted_iff (hmergers : d.mergers = [fold]) :
    Diagram.Unhinted (domain P width true narrate).toSpace d e ↔ ∃ reached,
      ((domain P width true narrate).branchAll d.layer.states none none).result = .ok reached ∧
      e = { d with layer := ⟨d.layer.depth + 1, fold reached d.width,
        d.layer.isExact && (fold reached d.width).length == reached.length⟩ } := by
  rw [Diagram.Unhinted, Diagram.advance_eq_ok_iff]
  constructor
  · rintro ⟨reached, kept, hreached, hkept, he⟩
    rw [hmergers, shrink_fold, Except.ok.injEq] at hkept
    exact ⟨reached, hreached, hkept ▸ he⟩
  · rintro ⟨reached, hreached, he⟩
    exact ⟨reached, _, hreached, by rw [hmergers, shrink_fold], he⟩

/-- All visits of a layer have been made. -/
theorem mem_reached {states reached : List Visits}
    (h : ((domain P width true narrate).branchAll states none none).result = .ok reached) :
    t ∈ reached ↔ ∃ x ∈ states, ∃ v ∈ x.feasible, t = x.go P x.relaxation v := by
  obtain ⟨nexts, hall, -⟩ := Space.branchAll_eq_ok_iff.mp h
  rw [Space.mem_of_branchAll h]
  constructor
  · rintro ⟨x, hx, next, he, ht⟩
    obtain ⟨v, hv, rfl⟩ := mem_of_expand he ht
    exact ⟨x, hx, v, hv, rfl⟩
  · rintro ⟨x, hx, v, hv, rfl⟩
    obtain ⟨next, -, he⟩ := forall₂_mem_left hall hx
    obtain hplain | hplain := expand_plain (P := P) x
    · cases hplain.symm.trans he
    · exact ⟨x, hx, _, hplain, List.mem_map_of_mem hv⟩

/-- **The next layer covers one more visit.** -/
theorem Covers.step (h : Covers P s k d) (hP : P.WellFormed) (hone : P.OneToOne)
    (hk : s.route.length + k < P.size)
    (he : Diagram.Unhinted (domain P width true narrate).toSpace d e) : Covers P s (k + 1) e := by
  obtain ⟨reached, hreached, rfl⟩ := (unhinted_iff h.mergers).mp he
  refine ⟨h.mergers, fun x hx v hv => ?_, ?_, fun hexact R hR hpre _ => ?_⟩
  · obtain ⟨y, hy, hv⟩ := (mem_fold hx).2 v hv
    obtain ⟨z, hz, w, -, rfl⟩ := (mem_reached hreached).mp hy
    exact placeable_feasibleAfter hP (h.placeable z hz) hv
  · obtain ⟨x, hx, hlasting⟩ := h.lasting
    have hleft : P.size - (s.route.length + k) = P.size - (s.route.length + (k + 1)) + 1 := by omega
    rw [hleft] at hlasting
    obtain ⟨v, hv, hlasting⟩ := hlasting.exists_visit hP (h.placeable x hx)
    exact Lasting.fold ((mem_reached hreached).mpr ⟨x, hx, v, hv, rfl⟩) hlasting
  · rw [Bool.and_eq_true, beq_iff_eq] at hexact
    obtain ⟨x, hx, hcoherent, hxpre, hlen⟩ := h.exact hexact.1 R hR hpre (Nat.le_of_lt hk)
    obtain ⟨v, hv, hvpre⟩ := hcoherent.exists_next hP hR hxpre (hlen ▸ hk)
    refine ⟨x.go P x.relaxation v, ?_, hcoherent.go hP hone hv, by rwa [route_go], ?_⟩
    · dsimp only
      rw [fold_eq_self hexact.2]
      exact (mem_reached hreached).mpr ⟨x, hx, v, hv, rfl⟩
    · rw [route_go, List.length_append, List.length_singleton, hlen, Nat.add_assoc]

/-- **The relaxation advances**, unless a cost overflows. -/
theorem exists_unhinted (hmergers : d.mergers = [fold]) :
    (d.advance (domain P width true narrate).toSpace none none).result = .error .overflow ∨
      ∃ e, Diagram.Unhinted (domain P width true narrate).toSpace d e := by
  cases hreached :
      ((domain P width true narrate).branchAll d.layer.states none none).result with
  | ok reached => exact .inr ⟨_, (unhinted_iff hmergers).mpr ⟨reached, hreached, rfl⟩⟩
  | error f =>
    obtain ⟨x, -, hx⟩ := Space.branchAll_eq_error hreached
    have hf : f = .overflow := by
      obtain h | h := expand_plain (P := P) x
      · cases hx.symm.trans h
        rfl
      · cases hx.symm.trans h
    refine .inl ?_
    simp only [Diagram.advance, Layer.expand, Traced.result_bind, hreached, hf]
    rfl

/-! ## Bounds -/

/-- The best state of the layer costs no more than any route that continues `s`. -/
def Below (P : Instance) (s : Visits) (d : Diagram Visits) : Prop :=
  ∃ x, d.layer.best cost = some x ∧
    ∀ R, P.IsRoute R → s.route <+: R → x.cost ≤ P.routeCost R

theorem below_of_exists (hne : d.layer.states ≠ [])
    (h : ∀ R, P.IsRoute R → s.route <+: R → ∃ y ∈ d.layer.states, y.cost ≤ P.routeCost R) :
    Below P s d := by
  obtain ⟨x, hx⟩ := Lockstep.exists_best cost hne
  refine ⟨x, hx, fun R hR hpre => ?_⟩
  obtain ⟨y, hy, hle⟩ := h R hR hpre
  exact Int.le_trans (Layer.cost_best_le hx y hy) hle

theorem Covers.ne_nil (h : Covers P s k d) : d.layer.states ≠ [] := by
  obtain ⟨x, hx, -⟩ := h.lasting
  exact List.ne_nil_of_mem hx

/-- **An exact layer gives a bound.** -/
theorem Covers.below (h : Covers P s k d) (hk : s.route.length + k ≤ P.size)
    (hnonneg : ∀ a b, a < P.size → b < P.size → 0 ≤ P.cost a b)
    (hexact : d.layer.isExact = true) : Below P s d :=
  below_of_exists h.ne_nil fun R hR hpre => by
    obtain ⟨x, hx, hcoherent, hxpre, -⟩ := h.exact hexact R hR hpre hk
    exact ⟨x, hx, hcoherent.cost ▸ hR.routeCost_prefix_le hnonneg hxpre⟩

/-- **So does the layer after an exact one**, even if it is folded. -/
theorem Covers.below_step (h : Covers P s k d) (hP : P.WellFormed) (hone : P.OneToOne)
    (hk : s.route.length + k < P.size)
    (hnonneg : ∀ a b, a < P.size → b < P.size → 0 ≤ P.cost a b)
    (hexact : d.layer.isExact = true)
    (he : Diagram.Unhinted (domain P width true narrate).toSpace d e) : Below P s e := by
  refine below_of_exists (h.step hP hone hk he).ne_nil fun R hR hpre => ?_
  obtain ⟨x, hx, hcoherent, hxpre, hlen⟩ := h.exact hexact R hR hpre (Nat.le_of_lt hk)
  obtain ⟨v, hv, hvpre⟩ := hcoherent.exists_next hP hR hxpre (hlen ▸ hk)
  obtain ⟨reached, hreached, rfl⟩ := (unhinted_iff h.mergers).mp he
  obtain ⟨y, hy, hle⟩ :=
    exists_le_of_mem d.width ((mem_reached hreached).mpr ⟨x, hx, v, hv, rfl⟩)
  exact ⟨y, hy, Int.le_trans hle (hcoherent.cost_next_le hP hone hnonneg hR hv hvpre)⟩

/-! ## The relaxation of a partial route -/

/-- **The layers of a relaxation.** As long as the routes that continue `s` are incomplete, no layer
is empty, and the next one is reached unless a cost overflows. The best state of a layer costs no
more than these routes if the layer, or the one before it, is exact. -/
theorem relaxation_layers {d : Draft} (htyped : d.Typed) (hP : Instance.ofDraft d = .ok P)
    (hreq : P.pickups ≠ []) (hone : P.OneToOne)
    (hnonneg : ∀ a b, a < P.size → b < P.size → 0 ≤ P.cost a b) {infer : Bool} {r : Visits}
    (hr : root P infer = .ok r) (width : Nat) (narrate : Bool) {n : Nat}
    (hs : Steps (domain P width true narrate).Precedes n r s) :
    let D := domain P width true narrate
    ∃ d₀, D.relax s = .ok (some d₀) ∧ ∀ k d, Steps (Diagram.Unhinted D.toSpace) k d₀ d →
      s.route.length + k ≤ P.size →
        d.layer.states ≠ [] ∧ (d.layer.isExact = true → Below P s d) ∧
        (s.route.length + k < P.size →
          ((d.advance D.toSpace none none).result = .error .overflow ∨
            ∃ e, Diagram.Unhinted D.toSpace d e) ∧
          (d.layer.isExact = true → ∀ e, Diagram.Unhinted D.toSpace d e → Below P s e)) := by
  have hwf := Instance.wellFormed_of_ofDraft htyped hP
  obtain ⟨relaxation, -, rfl⟩ := root_eq_ok_iff.mp hr
  have hroot : Coherent P ⟨P.start, [], P.pickups, 0, relaxation⟩ := coherent_root hwf hreq
  have hcoherent := hroot.of_steps hwf hone (hs.mono fun _ _ => Space.Precedes.leads)
  refine ⟨Diagram.root s [fold] width, rfl, fun k d hd hk => ?_⟩
  have hcovers : s.route.length + k ≤ P.size → Covers P s k d :=
    hd.invariant (P := fun k d => s.route.length + k ≤ P.size → Covers P s k d)
      (fun _ => covers_root hwf hcoherent) fun k d e hd he hk =>
        (hd (Nat.le_of_succ_le hk)).step hwf hone hk he
  have h := hcovers hk
  exact ⟨h.ne_nil, h.below hk hnonneg, fun hlt => ⟨exists_unhinted h.mergers,
    fun hexact e he => h.below_step hwf hone hlt hnonneg hexact he⟩⟩

/-! ### Where the bound ends -/

/-- A relaxation of width one, at a layer that holds one state. -/
def narrow (depth : Nat) (isExact : Bool) (node : Nat) (earlier feasible : List Nat) (cost : Int) :
    Diagram Visits :=
  ⟨⟨depth, [⟨node, earlier, feasible, cost, none⟩], isExact⟩, [fold], 1⟩

/-- The layers of the narrow relaxation with a dear return last, and the first one bounds. -/
theorem dearReturn_layers : Instance.dearReturnDraft.Typed ∧
    Instance.ofDraft Instance.dearReturnDraft = .ok Instance.dearReturn ∧
    Instance.dearReturn.pickups ≠ [] ∧ Instance.dearReturn.OneToOne ∧
    (∀ a b, a < Instance.dearReturn.size → b < Instance.dearReturn.size →
      0 ≤ Instance.dearReturn.cost a b) ∧
    root Instance.dearReturn false = .ok ⟨0, [], [1, 3], 0, none⟩ ∧
    let D := domain Instance.dearReturn 1 true false
    let s : Visits := ⟨0, [], [1, 3], 0, none⟩
    ∃ d₀, D.relax s = .ok (some d₀) ∧ ∀ k d, Steps (Diagram.Unhinted D.toSpace) k d₀ d →
      1 + k ≤ Instance.dearReturn.size →
        d.layer.states ≠ [] ∧ (d.layer.isExact = true → Below Instance.dearReturn s d) := by
  have hreq : Instance.dearReturn.pickups ≠ [] := by decide
  refine ⟨Instance.typed_dearReturn, Instance.ofDraft_dearReturn, hreq,
    Instance.oneToOne_dearReturn, Instance.cost_dearReturn_nonneg, rfl, ?_⟩
  obtain ⟨d₀, hd₀, h⟩ := relaxation_layers Instance.typed_dearReturn Instance.ofDraft_dearReturn
    hreq Instance.oneToOne_dearReturn Instance.cost_dearReturn_nonneg
    (show root Instance.dearReturn false = .ok ⟨0, [], [1, 3], 0, none⟩ from rfl) 1 false (.refl _)
  exact ⟨d₀, hd₀, fun k d hd hk => ⟨(h k d hd hk).1, (h k d hd hk).2.1⟩⟩

/-- **A folded layer may overestimate**: the narrow relaxation goes on from the first pickup to its
delivery, and three layers below the root its only state has cost 5, since all other arcs from there
but the one to the end depot are dear. The route that serves the second request first costs 1. -/
theorem dearReturn_overestimates : ¬∀ k d,
    Steps (Diagram.Unhinted (domain Instance.dearReturn 1 true false).toSpace) k
      (Diagram.root ⟨0, [], [1, 3], 0, none⟩ [fold] 1) d →
    1 + k ≤ Instance.dearReturn.size → Below Instance.dearReturn ⟨0, [], [1, 3], 0, none⟩ d := by
  have hfirst : Diagram.Unhinted (domain Instance.dearReturn 1 true false).toSpace
      (narrow 0 true 0 [] [1, 3] 0) (narrow 1 false 1 [0] [1, 2, 3, 4] 0) := by
    unfold Diagram.Unhinted
    cbv
  have hsecond : Diagram.Unhinted (domain Instance.dearReturn 1 true false).toSpace
      (narrow 1 false 1 [0] [1, 2, 3, 4] 0) (narrow 2 false 2 [1, 0] [1, 2, 3, 4] 0) := by
    unfold Diagram.Unhinted
    cbv
  have hthird : Diagram.Unhinted (domain Instance.dearReturn 1 true false).toSpace
      (narrow 2 false 2 [1, 0] [1, 2, 3, 4] 0) (narrow 3 false 1 [2, 1, 0] [1, 2, 3, 4] 5) := by
    unfold Diagram.Unhinted
    cbv
  intro h
  obtain ⟨x, hx, hle⟩ := h 3 _ (.head hfirst (.head hsecond (.head hthird (.refl _)))) (by decide)
  have hcost : x.cost = 5 := congrArg cost (Option.some.inj hx).symm
  have hroute := hle _ Instance.isRoute_dearReturn ⟨[3, 4, 1, 2, 5], rfl⟩
  rw [hcost] at hroute
  exact absurd hroute (by decide)

end Routing.Visits

end Fathom
