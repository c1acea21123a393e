import Fathom.Proofs.Layered
import Fathom.Proofs.Minimize
import Fathom.Proofs.Routing.Relaxation

/-!
# Searches for a cheapest route

What the formulations of the routing problem have in common is collected in `Formulation`: a state
leads to some of the routes (`interest`), every choice is one level further down, and the relaxation
at hand, if inference has brought one, admits the routes that the state leads to (`Fits`). The
lockstep then passes such relaxations on, and the one of a state fits all states of its restriction,
because these lead to fewer routes (`Guided`).

With inference the closing arc counts: what a relaxation tells is a bound on closed routes, and a
route is sure not to be lost as long as its closed cost improves on the incumbent. So a search finds
a route that costs no more than any other one is priced at (`Instance.price`).

Results:
* `Formulation.levelled`, `Formulation.admissible`: a formulation is a levelled domain, and its
  inference diagrams are admissible;
* `Formulation.returns`: without budgets, the search returns a route whose cost is at most the price
  of any route.
-/

namespace Fathom.Routing

open Assignment (Serves filtersAny)

/-- What a route has to beat for a search to be sure not to lose it. -/
def Instance.price (P : Instance) (infer : Bool) (R : List Nat) : Int :=
  if infer then P.closedCost R else P.routeCost R

variable {P : Instance} {most : Int} {infer : Bool} {interest interest' : List Nat → Prop}
  {hint hint' : Option Assignment} {R : List Nat} {best : Option Int} {i j : Nat}

theorem Instance.routeCost_le_price (infer : Bool) (hnonneg : 0 ≤ P.cost P.finish P.start) :
    P.routeCost R ≤ P.price infer R := by
  unfold Instance.price Instance.closedCost
  split <;> omega

/-! ## Hints -/

/-- A relaxation is there only with inference, and it admits the routes of interest. -/
def Fits (P : Instance) (most : Int) (infer : Bool) (interest : List Nat → Prop)
    (hint : Option Assignment) : Prop :=
  ∀ a, hint = some a → infer = true ∧ Serves P most interest a

theorem fits_none : Fits P most infer interest none := nofun

theorem fits_some {a : Assignment} (ha : Serves P most interest a) :
    Fits P most true interest (some a) := fun _ hb => ⟨rfl, Option.some.inj hb ▸ ha⟩

namespace Fits

theorem mono (h : Fits P most infer interest hint)
    (hle : ∀ R, P.IsRoute R → interest' R → interest R) : Fits P most infer interest' hint :=
  fun a ha => ⟨(h a ha).1, (h a ha).2.mono hle⟩

theorem orElse (h : Fits P most infer interest hint) (h' : Fits P most infer interest hint') :
    Fits P most infer interest (hint <|> hint') := by
  cases hint with
  | none => exact h'
  | some a => exact h

theorem filtersAny_total (h : Fits P most infer interest hint) (hi : i < P.size) (hj : j < P.size)
    (best : Option Int) : ∃ verdict, filtersAny hint i j best = .ok verdict := by
  cases hint with
  | none => exact ⟨false, rfl⟩
  | some a => exact (h a rfl).2.filters_total hi hj best

/-- **No arc of a route is filtered** whose price improves on the incumbent. -/
theorem not_filtered (h : Fits P most infer interest hint) (hR : P.IsRoute R) (hi : interest R)
    (hb : Cost.beats best (P.price infer R) = true) (harc : (i, j) ∈ arcs R) :
    filtersAny hint i j best ≠ .ok true := by
  cases hint with
  | none => exact nofun
  | some a =>
    obtain ⟨rfl, hserves⟩ := h a rfl
    cases best with
    | none => exact nofun
    | some b =>
      intro hfilters
      have hle := hserves.le_of_filters hR hi harc hfilters
      rw [Cost.beats_some, decide_eq_true_eq] at hb
      exact absurd hb (Int.not_lt.mpr hle)

end Fits

/-- A diagram of relaxations that holds one of them goes on holding it. -/
theorem Assignment.advance_diagram {d : Diagram Assignment} {a : Assignment}
    (hd : d.layer.states = [a]) (dual : Option Assignment) (best : Option Int) :
    ∃ e, (d.advance Assignment.space dual best).result = .ok e ∧ e.layer.states = [a] := by
  have hreached : (Assignment.space.branchAll d.layer.states dual best).result = .ok [a] :=
    Space.branchAll_eq_ok_iff.mpr ⟨[[a]], by rw [hd]; exact .cons rfl .nil, rfl⟩
  have hkept : Merger.shrink d.mergers d.width (d.layer.depth + 1) [a] = .ok [a] := by
    refine if_pos ?_
    rw [List.length_singleton]
    omega
  exact ⟨_, Diagram.advance_eq_ok_iff.mpr ⟨[a], [a], hreached, hkept, rfl⟩, rfl⟩

/-- The inference diagram holds one relaxation, on every layer the same. It fits, and so does what
was read of it. -/
structure Inferring {σ : Type} (fit : Assignment → Prop) (L : Lockstep σ Assignment) : Prop where
  diagram : ∀ d, L.infer = some d → ∃ a, d.layer.states = [a] ∧ fit a
  dual : ∀ a, L.inferenceDual = some a → fit a

namespace Inferring

variable {σ : Type} {D : Domain σ Assignment} {fit : Assignment → Prop}
  {L L' : Lockstep σ Assignment} {a : Assignment}

theorem start {s : σ} {width : Nat} (hinfer : D.infer s = .ok (hint.map fun a => a.diagram width))
    (hfit : ∀ a, hint = some a → fit a) (hs : Lockstep.start D s = .ok L) : Inferring fit L := by
  obtain ⟨infer, relax, restrict, hi, -, -, rfl⟩ := Lockstep.start_eq_ok_iff.mp hs
  rw [hinfer, Except.ok.injEq] at hi
  subst hi
  refine ⟨fun d hd => ?_, nofun⟩
  obtain ⟨a, rfl, rfl⟩ := Option.map_eq_some_iff.mp hd
  exact ⟨a, rfl, hfit a rfl⟩

/-- The hint that is passed on is the relaxation of the inference diagram. -/
theorem note (h : Inferring fit L) (ha : (L.note D).inferenceDual = some a) : fit a := by
  rw [Lockstep.note_inferenceDual, Lockstep.noteInference] at ha
  split at ha
  · exact h.dual a ha
  · rename_i b hb
    obtain rfl : b = a := Option.some.inj ha
    obtain ⟨d, hd, hb⟩ := Option.bind_eq_some_iff.mp hb
    obtain ⟨a', hstates, hfit⟩ := h.diagram d hd
    have hmem := Layer.best_mem hb
    rw [hstates, List.mem_singleton] at hmem
    exact hmem ▸ hfit

/-- **One round keeps the relaxation.** -/
theorem step (h : Inferring fit L) (hdual : D.dual = Assignment.space)
    (hadv : Lockstep.Advances D best (L.note D) L') : Inferring fit L' := by
  refine ⟨fun d' hd' => ?_, fun a ha => h.note (hadv.inferenceDual ▸ ha)⟩
  obtain ⟨d, hd, hadvance⟩ := hadv.exists_infer hd'
  obtain ⟨a, hstates, hfit⟩ := h.diagram d hd
  rw [hdual] at hadvance
  obtain ⟨e, he, hstates'⟩ := Assignment.advance_diagram hstates (L.note D).inferenceDual best
  cases he.symm.trans hadvance
  exact ⟨a, hstates', hfit⟩

/-- The inference diagram goes one layer further. -/
theorem advances (h : Inferring fit L) (hdual : D.dual = Assignment.space)
    (dual : Option Assignment) {d : Diagram Assignment} (hd : L.infer = some d) :
    ∃ e, (d.advance D.dual dual best).result = .ok e := by
  obtain ⟨a, hstates, -⟩ := h.diagram d hd
  rw [hdual]
  obtain ⟨e, he, -⟩ := Assignment.advance_diagram hstates dual best
  exact ⟨e, he⟩

end Inferring

/-! ## Formulations -/

/-- **A search for a cheapest route.** A state of `level n` has `n` choices behind it and leads to
the routes of `interest`; one that has all `depth` choices is the route `routeOf`. -/
structure Formulation (P : Instance) (most : Int) (infer : Bool) {σ : Type}
    (D : Domain σ Assignment) (interest : σ → List Nat → Prop) (routeOf : σ → List Nat)
    (level : Nat → σ → Prop) (depth : Nat) : Prop where
  dual : D.dual = Assignment.space
  relax : ∀ s, D.relax s = .ok none
  restrict : ∀ s, ∃ width, D.restrict s = .ok (some (Diagram.root s [Merger.cheapest D.cost] width))
  tall : depth < D.height
  level_le : ∀ {n s}, level n s → n ≤ depth
  solved_iff : ∀ {n s}, level n s → (D.solved s = true ↔ n = depth)
  solution : ∀ {n s}, level n s → D.solved s = true →
    P.IsRoute (routeOf s) ∧ D.cost s = P.routeCost (routeOf s)
  cost_le : ∀ {n s R}, level n s → P.IsRoute R → interest s R → D.cost s ≤ P.routeCost R
  infers : ∀ {n s}, level n s → ∃ hint width,
    D.infer s = .ok (hint.map fun a => a.diagram width) ∧ Fits P most infer (interest s) hint
  expands : ∀ {n s hint} best, level n s → Fits P most infer (interest s) hint →
    ∃ next, D.expand s hint best = .ok next
  leads : ∀ {n s hint best next t}, level n s → Fits P most infer (interest s) hint →
    D.expand s hint best = .ok next → t ∈ next →
      level (n + 1) t ∧ ∀ R, P.IsRoute R → interest t R → interest s R
  /-- A route is kept as long as its price improves on the incumbent. -/
  keeps : ∀ {n s hint best next R}, level n s → n < depth →
    Fits P most infer (interest s) hint → D.expand s hint best = .ok next → P.IsRoute R →
      interest s R → Cost.beats best (P.price infer R) = true → ∃ t ∈ next, interest t R

namespace Formulation

variable {σ : Type} {D : Domain σ Assignment} {interest : σ → List Nat → Prop}
  {routeOf : σ → List Nat} {level : Nat → σ → Prop} {depth n k : Nat} {r s : σ}
  {L L' : Lockstep σ Assignment}

/-- What a state offers is the price of the routes that it leads to. -/
def Offers (P : Instance) (infer : Bool) (interest : σ → List Nat → Prop) (s : σ) (c : Int) :
    Prop :=
  ∃ R, P.IsRoute R ∧ interest s R ∧ c = P.price infer R

/-- What is known of the lockstep of `r`, a state of level `n`, after `k` rounds. -/
structure Guided (P : Instance) (most : Int) (infer : Bool) (D : Domain σ Assignment)
    (interest : σ → List Nat → Prop) (level : Nat → σ → Prop) (r : σ) (n k : Nat)
    (L : Lockstep σ Assignment) : Prop where
  relax : L.relax = none
  restricts : L.restrict.Restricts D.cost
  /-- The inference diagram holds one relaxation, on every layer the same. -/
  inference : ∀ d, L.infer = some d →
    ∃ a, d.layer.states = [a] ∧ Fits P most infer (interest r) (some a)
  inferenceDual : Fits P most infer (interest r) L.inferenceDual
  /-- The states of the restriction lead to routes that the root leads to. -/
  states : ∀ t ∈ L.restrict.layer.states,
    level (n + k) t ∧ ∀ R, P.IsRoute R → interest t R → interest r R

theorem Guided.inferring (hL : Guided P most infer D interest level r n k L) :
    Inferring (fun a => Fits P most infer (interest r) (some a)) L :=
  ⟨hL.inference, fun _ ha => ha ▸ hL.inferenceDual⟩

theorem Guided.start (h : Formulation P most infer D interest routeOf level depth)
    (hr : level n r) (hs : Lockstep.start D r = .ok L) :
    Guided P most infer D interest level r n 0 L := by
  obtain ⟨hint, width, hinfer, hfits⟩ := h.infers hr
  obtain ⟨width', hrestrict⟩ := h.restrict r
  have hinferring : Inferring (fun a => Fits P most infer (interest r) (some a)) L :=
    .start hinfer (fun _ ha => ha ▸ hfits) hs
  obtain ⟨d, relax, restrict, -, hx, hd, rfl⟩ := Lockstep.start_eq_ok_iff.mp hs
  rw [h.relax, Except.ok.injEq] at hx
  rw [hrestrict, Except.ok.injEq, Option.some.injEq] at hd
  subst hx hd
  refine ⟨rfl, rfl, hinferring.diagram, fits_none, fun t ht => ?_⟩
  rw [List.mem_singleton.mp ht]
  exact ⟨hr, fun _ _ hR => hR⟩

/-- The hint that is passed on fits the root. -/
theorem Guided.note_inferenceDual (hL : Guided P most infer D interest level r n k L) :
    Fits P most infer (interest r) (L.note D).inferenceDual :=
  fun a ha => hL.inferring.note ha a rfl

/-- It fits every state of the restriction. -/
theorem Guided.fits (hL : Guided P most infer D interest level r n k L)
    (hs : s = r ∨ s ∈ L.restrict.layer.states) :
    Fits P most infer (interest s) (L.note D).inferenceDual := by
  obtain rfl | hs := hs
  · exact hL.note_inferenceDual
  · exact hL.note_inferenceDual.mono (hL.states s hs).2

/-- **One round keeps what is known.** -/
theorem Guided.step (h : Formulation P most infer D interest routeOf level depth)
    (hL : Guided P most infer D interest level r n k L)
    (hadv : Lockstep.Advances D best (L.note D) L') :
    Guided P most infer D interest level r n (k + 1) L' := by
  have hinferring := hL.inferring.step h.dual hadv
  have hrestrict := hadv.restrict
  rw [Lockstep.note_restrict] at hrestrict
  obtain ⟨hrestricts, hyields, -⟩ := hL.restricts.advance hrestrict
  refine ⟨hadv.relax_eq_none hL.relax, hrestricts, hinferring.diagram,
    fun a ha => hinferring.dual a ha a rfl, fun t ht => ?_⟩
  obtain ⟨s, hs, next, hnext, ht⟩ := hyields t ht
  obtain ⟨hlevel, hinterest⟩ := hL.states s hs
  obtain ⟨hlevel', hinterest'⟩ := h.leads hlevel (hL.fits (.inr hs)) hnext ht
  exact ⟨hlevel', fun R hR ht => hinterest R hR (hinterest' R hR ht)⟩

/-- **What is known holds along every run.** -/
theorem guided_of_run (h : Formulation P most infer D interest routeOf level depth)
    (hr : level n r) (hrun : Lockstep.Run D best r k L) :
    Guided P most infer D interest level r n k L := by
  induction hrun with
  | start hs => exact Guided.start h hr hs
  | step _ _ hadv ih => exact ih.step h hadv

/-- What the lockstep passes on fits the states it is passed to. -/
theorem fits_of_passes (h : Formulation P most infer D interest routeOf level depth)
    (hp : Lockstep.Passes D level s hint) : Fits P most infer (interest s) hint := by
  obtain ⟨best, r, n, k, L, hr, hrun, -, hs, rfl⟩ := hp
  exact (h.guided_of_run hr hrun).fits hs

/-- **A formulation is a levelled domain.** -/
theorem levelled (h : Formulation P most infer D interest routeOf level depth)
    (hclosing : 0 ≤ P.cost P.finish P.start) :
    Levelled D level depth (Offers P infer interest) where
  level_le := h.level_le
  solved_iff := h.solved_iff
  cost_le hs hc := by
    obtain ⟨R, hR, hi, rfl⟩ := hc
    exact Int.le_trans (h.cost_le hs hR hi) (Instance.routeCost_le_price infer hclosing)
  restricts _ := h.restrict _
  expands best hs hp := h.expands best hs (h.fits_of_passes hp)
  leads hs hp he ht := (h.leads hs (h.fits_of_passes hp) he ht).1
  keeps hs hn hp he hc hb := by
    obtain ⟨R, hR, hi, rfl⟩ := hc
    obtain ⟨t, ht, hi⟩ := h.keeps hs hn (h.fits_of_passes hp) he hR hi hb
    exact ⟨t, ht, R, hR, hi, rfl⟩
  tall := h.tall

/-- **The inference diagrams of a formulation are admissible.** -/
theorem admissible (h : Formulation P most infer D interest routeOf level depth) :
    Admissible D level depth (Offers P infer interest) where
  infers hr := by
    obtain ⟨hint, width, hinfer, -⟩ := h.infers hr
    exact ⟨_, hinfer⟩
  relaxes _ := ⟨none, h.relax _⟩
  infer_le hr hrun _ hc _ hd := by
    obtain ⟨R, hR, hi, rfl⟩ := hc
    obtain ⟨a, hstates, hfits⟩ := (h.guided_of_run hr hrun).inference _ hd
    obtain ⟨rfl, hserves⟩ := hfits a rfl
    refine ⟨a, by rw [Layer.best, hstates]; rfl, ?_⟩
    rw [h.dual]
    exact hserves.value_le hR hi
  relax_le hr hrun _ _ _ hd := by
    rw [(h.guided_of_run hr hrun).relax] at hd
    cases hd
  infer_advances hr hrun _ hd := (h.guided_of_run hr hrun).inferring.advances h.dual _ hd
  relax_advances hr hrun _ hd := by
    rw [(h.guided_of_run hr hrun).relax] at hd
    cases hd

/-! ## Whole searches -/

/-- Given `fuel`, the search from `r` ends and returns the route `R`, which it claims to be
optimal. -/
def Returns (P : Instance) (D : Domain σ Assignment) (routeOf : σ → List Nat) (r : σ)
    (config : Config) (clock : Nat → Nat → Nat) (fuel : Nat) (R : List Nat) : Prop :=
  ∃ s p, (Search.start r config).minimize D clock fuel = (s, .ok .exhausted) ∧
    s.optimal = true ∧ s.incumbent = some p ∧ D.solved p = true ∧
    routeOf p = R ∧ P.IsRoute R ∧ D.cost p = P.routeCost R

/-- **Without budgets, the search returns a route**, whose cost is at most the price of any route
that its root leads to. -/
theorem returns (h : Formulation P most infer D interest routeOf level depth)
    (hclosing : 0 ≤ P.cost P.finish P.start) (hr : level 0 r)
    (hroutes : ∃ R, P.IsRoute R ∧ interest r R) (config : Config) (hconfig : config.Unlimited)
    (clock : Nat → Nat → Nat) : ∃ rounds, ∀ fuel, rounds ≤ fuel →
      ∃ R, Returns P D routeOf r config clock fuel R ∧
        ∀ Q, P.IsRoute Q → interest r Q → P.routeCost R ≤ P.price infer Q := by
  have hlevelled := h.levelled hclosing
  obtain ⟨rounds, hrounds⟩ := Search.minimize_unlimited (hlevelled.trusted h.admissible)
    (hlevelled.answering h.admissible) ⟨0, hr⟩ config hconfig clock
  refine ⟨rounds, fun fuel hfuel => ?_⟩
  obtain ⟨s, hmin, hsome, hnone⟩ := hrounds fuel hfuel
  cases hp : s.incumbent with
  | none =>
    obtain ⟨R, hR, hi⟩ := hroutes
    exact absurd ⟨R, hR, hi, rfl⟩ ((hnone hp).2 _)
  | some p =>
    obtain ⟨hoptimal, ⟨n, hlevel⟩, hsolved, hleast⟩ := hsome p hp
    obtain ⟨hroute, hcost⟩ := h.solution hlevel hsolved
    refine ⟨routeOf p, ⟨s, p, hmin, hoptimal, hp, hsolved, rfl, hroute, hcost⟩, fun Q hQ hi => ?_⟩
    rw [← hcost]
    exact hleast _ ⟨Q, hQ, hi, rfl⟩

end Formulation

end Fathom.Routing
