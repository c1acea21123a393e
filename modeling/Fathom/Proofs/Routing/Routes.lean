import Fathom.Proofs.Routing.Decoding
import Mathlib.Algebra.Order.BigOperators.Group.List
import Mathlib.Algebra.Ring.Int.Defs
import Mathlib.Data.List.Chain

/-!
# Valid routes

`Instance.IsRoute` says what a route is: it starts in `+0`, ends in `-0`, visits every node once and
each pickup before its delivery. Both formulations of the routing problem are judged against it. The
order of the visits is told by positions, `R.idxOf a < R.idxOf b`, so that it is a linear order.

Results:
* `mem_arcs_iff`: the arcs of a list without repetition join nodes at successive positions;
* `isInfix_of_isChain`: whatever the arcs of a route join step by step is a stretch of it;
* `IsRoute.isFeasible`: if there is a request, the arcs of a route are the ones that
  `Instance.isFeasible` admits.
-/

namespace Fathom.Routing

/-- The arcs of a list of nodes, each from a node to the next. -/
def arcs (R : List Nat) : List (Nat × Nat) := R.zip R.tail

/-! ## Arcs -/

variable {R l c : List Nat} {a b x y : Nat}

@[simp] theorem arcs_nil : arcs [] = [] := rfl

@[simp] theorem arcs_singleton : arcs [a] = [] := rfl

@[simp] theorem arcs_cons_cons : arcs (a :: b :: l) = (a, b) :: arcs (b :: l) := rfl

theorem arcs_concat (l : List Nat) (a b : Nat) :
    arcs (l ++ [a, b]) = arcs (l ++ [a]) ++ [(a, b)] := by
  induction l with
  | nil => rfl
  | cons x l ih => cases l <;> simp_all

theorem map_fst_arcs (R : List Nat) : (arcs R).map Prod.fst = R.dropLast := by
  induction R with
  | nil => rfl
  | cons a R ih => cases R <;> simp_all

theorem map_snd_arcs (R : List Nat) : (arcs R).map Prod.snd = R.tail :=
  List.map_snd_zip (by rw [List.length_tail]; exact Nat.sub_le ..)

theorem mem_arcs_iff_getElem? :
    (a, b) ∈ arcs R ↔ ∃ i, R[i]? = some a ∧ R[i + 1]? = some b := by
  rw [List.mem_iff_getElem?]
  refine exists_congr fun i => ?_
  rw [arcs, List.getElem?_zip_eq_some, List.getElem?_tail]

theorem idxOf_of_getElem? (h : R.Nodup) {i : Nat} (hi : R[i]? = some a) : R.idxOf a = i := by
  obtain ⟨hlt, rfl⟩ := List.getElem?_eq_some_iff.mp hi
  exact h.idxOf_getElem i hlt

/-- **The arcs of a list without repetition** join nodes at successive positions. -/
theorem mem_arcs_iff (h : R.Nodup) :
    (a, b) ∈ arcs R ↔ b ∈ R ∧ R.idxOf b = R.idxOf a + 1 := by
  rw [mem_arcs_iff_getElem?]
  constructor
  · rintro ⟨i, ha, hb⟩
    rw [idxOf_of_getElem? h ha, idxOf_of_getElem? h hb]
    exact ⟨List.mem_of_getElem? hb, rfl⟩
  · rintro ⟨hb, hab⟩
    have hlt : R.idxOf b < R.length := List.idxOf_lt_length_iff.mpr hb
    have ha : a ∈ R := List.idxOf_lt_length_iff.mp (by omega)
    exact ⟨R.idxOf a, List.getElem?_idxOf ha, hab ▸ List.getElem?_idxOf hb⟩

theorem mem_left_of_arc (h : (a, b) ∈ arcs R) : a ∈ R := (List.of_mem_zip h).1

theorem mem_right_of_arc (h : (a, b) ∈ arcs R) : b ∈ R :=
  List.mem_of_mem_tail (List.of_mem_zip h).2

/-- A node has at most one arc to it. -/
theorem arc_left_unique (h : R.Nodup) (hx : (x, b) ∈ arcs R) (hy : (y, b) ∈ arcs R) : x = y := by
  have hx' := (mem_arcs_iff h).mp hx
  have hy' := (mem_arcs_iff h).mp hy
  exact (List.idxOf_inj (mem_left_of_arc hx)).mp (by omega)

/-- A node has at most one arc from it. -/
theorem arc_right_unique (h : R.Nodup) (hx : (a, x) ∈ arcs R) (hy : (a, y) ∈ arcs R) : x = y := by
  have hx' := (mem_arcs_iff h).mp hx
  have hy' := (mem_arcs_iff h).mp hy
  exact (List.idxOf_inj hx'.1).mp (by omega)

/-- **What arcs join step by step is a stretch of the list.** -/
theorem isInfix_of_isChain (h : R.Nodup) (hc : c.IsChain fun a b => (a, b) ∈ arcs R)
    (hmem : ∀ a ∈ c, a ∈ R) : c <:+: R := by
  induction c with
  | nil => exact List.nil_infix
  | cons a c ih =>
    have ha := hmem a List.mem_cons_self
    cases c with
    | nil =>
      obtain ⟨l, r, rfl⟩ := List.append_of_mem ha
      exact ⟨l, r, by simp⟩
    | cons b c =>
      rw [List.isChain_cons_cons] at hc
      obtain ⟨l, r, hlr⟩ := ih hc.2 fun x hx => hmem x (List.mem_cons_of_mem _ hx)
      obtain ⟨i, hia, hib⟩ := mem_arcs_iff_getElem?.mp hc.1
      have hb : R[l.length]? = some b := by
        rw [← hlr]
        simp
      have hil : l.length = i + 1 := (List.getElem?_inj (List.getElem?_eq_some_iff.mp hb).1 h).mp
        (hb.trans hib.symm)
      -- `b` stands right behind `l`, so that `a` is the last node of `l`
      obtain rfl | ⟨l, x, rfl⟩ := l.eq_nil_or_concat'
      · cases hil
      · rw [List.length_append, List.length_singleton, Nat.add_right_cancel_iff] at hil
        rw [← hlr, ← hil] at hia
        have hxa : x = a := by simpa using hia
        exact ⟨l, r, by rw [← hlr, hxa]; simp⟩

/-! ## Routes -/

namespace Instance

/-- The list is a route: it goes from `+0` to `-0`, visits every node once, and each pickup before
its delivery. -/
structure IsRoute (P : Instance) (R : List Nat) : Prop where
  first : R.head? = some P.start
  last : R.getLast? = some P.finish
  visits : R.Perm P.nodes
  ordered : ∀ a b, P.deliveryOf a = some b → R.idxOf a < R.idxOf b

/-- The cost of the arcs of a list of nodes. -/
def routeCost (P : Instance) (R : List Nat) : Int :=
  ((arcs R).map fun arc => P.cost arc.1 arc.2).sum

variable {P : Instance}

@[simp] theorem routeCost_singleton : P.routeCost [a] = 0 := rfl

theorem routeCost_concat (l : List Nat) (a b : Nat) :
    P.routeCost (l ++ [a, b]) = P.routeCost (l ++ [a]) + P.cost a b := by
  simp [routeCost, arcs_concat]

/-! ### Costs in range -/

/-- No arc costs more than `most` in absolute value. -/
def Bounded (P : Instance) (most : Int) : Prop :=
  ∀ a b, a < P.size → b < P.size → -most ≤ P.cost a b ∧ P.cost a b ≤ most

theorem Bounded.mono {most most' : Int} (h : P.Bounded most) (hle : most ≤ most') :
    P.Bounded most' := fun a b ha hb => by
  have := h a b ha hb
  omega

theorem bounded_dearReturn : dearReturn.Bounded 100 := by
  have hall : ∀ a < 6, ∀ b < 6, -100 ≤ dearReturn.cost a b ∧ dearReturn.cost a b ≤ 100 := by decide
  exact fun a b ha hb => hall a ha b hb

theorem sum_bounds {α : Type} {l : List α} {f : α → Int} {most : Int}
    (h : ∀ x ∈ l, -most ≤ f x ∧ f x ≤ most) :
    -(l.length * most) ≤ (l.map f).sum ∧ (l.map f).sum ≤ l.length * most := by
  have hlow := List.card_nsmul_le_sum (l.map f) (-most) fun c hc => by
    obtain ⟨x, hx, rfl⟩ := List.mem_map.mp hc
    exact (h x hx).1
  have hhigh := List.sum_le_card_nsmul (l.map f) most fun c hc => by
    obtain ⟨x, hx, rfl⟩ := List.mem_map.mp hc
    exact (h x hx).2
  rw [List.length_map, nsmul_eq_mul] at hlow hhigh
  rw [Int.mul_neg] at hlow
  exact ⟨hlow, hhigh⟩

/-! ### Roles -/

theorem role_of_isPickup : P.isPickup a = true ↔ P.role? a = some .pickup := beq_iff_eq

theorem role_of_isDelivery : P.isDelivery a = true ↔ P.role? a = some .delivery := beq_iff_eq

theorem role_of_deliveryOf (h : P.deliveryOf a = some b) : P.role? a = some .pickup := by
  unfold deliveryOf at h
  split at h
  · exact role_of_isPickup.mp (by assumption)
  · cases h

theorem ne_of_role {r r' : Role} (ha : P.role? a = some r) (hb : P.role? b = some r')
    (hne : r ≠ r') : a ≠ b := by
  rintro rfl
  exact hne (Option.some.inj (ha.symm.trans hb))

namespace WellFormed

theorem role_start (hP : P.WellFormed) : P.role? P.start = some .start := hP.start_iff.mpr rfl

theorem role_finish (hP : P.WellFormed) : P.role? P.finish = some .finish := hP.finish_iff.mpr rfl

theorem start_lt (hP : P.WellFormed) : P.start < P.size := hP.lt_of_role hP.role_start

theorem finish_lt (hP : P.WellFormed) : P.finish < P.size := hP.lt_of_role hP.role_finish

theorem start_ne_finish (hP : P.WellFormed) : P.start ≠ P.finish :=
  ne_of_role hP.role_start hP.role_finish (by decide)

/-- What the nodes of an instance are. -/
theorem role_cases (hP : P.WellFormed) (ha : a < P.size) :
    a = P.start ∨ a = P.finish ∨ P.role? a = some .pickup ∨ P.role? a = some .delivery := by
  obtain ⟨r, hr⟩ := hP.exists_role ha
  cases r with
  | start => exact .inl (hP.start_iff.mp hr)
  | finish => exact .inr (.inl (hP.finish_iff.mp hr))
  | pickup => exact .inr (.inr (.inl hr))
  | delivery => exact .inr (.inr (.inr hr))

end WellFormed

/-! ### Positions -/

namespace IsRoute

theorem nodup (h : P.IsRoute R) : R.Nodup := h.visits.nodup_iff.mpr List.nodup_range

theorem mem_iff (h : P.IsRoute R) : a ∈ R ↔ a < P.size := by
  rw [h.visits.mem_iff, nodes, List.mem_range]

theorem length (h : P.IsRoute R) : R.length = P.size := by
  rw [h.visits.length_eq, nodes, List.length_range]

theorem idxOf_lt (h : P.IsRoute R) (ha : a < P.size) : R.idxOf a < P.size :=
  h.length ▸ List.idxOf_lt_length_iff.mpr (h.mem_iff.mpr ha)

theorem idxOf_inj (h : P.IsRoute R) (ha : a < P.size) (hab : R.idxOf a = R.idxOf b) : a = b :=
  (List.idxOf_inj (h.mem_iff.mpr ha)).mp hab

theorem idxOf_start (h : P.IsRoute R) : R.idxOf P.start = 0 :=
  idxOf_of_getElem? h.nodup (List.head?_eq_getElem? ▸ h.first)

theorem idxOf_finish (h : P.IsRoute R) : R.idxOf P.finish = P.size - 1 := by
  rw [← h.length]
  exact idxOf_of_getElem? h.nodup (List.getLast?_eq_getElem? ▸ h.last)

/-- Only the end depot is not left. -/
theorem exists_arc_from (h : P.IsRoute R) (ha : a < P.size) (hne : a ≠ P.finish) :
    ∃ b, (a, b) ∈ arcs R := by
  have hlast : R.idxOf a ≠ P.size - 1 := fun h0 =>
    hne (h.idxOf_inj ha (h0.trans h.idxOf_finish.symm))
  have hlt : R.idxOf a + 1 < R.length := by
    have := h.idxOf_lt ha
    rw [h.length]
    omega
  refine ⟨R[R.idxOf a + 1], mem_arcs_iff_getElem?.mpr ⟨R.idxOf a, ?_, ?_⟩⟩
  · exact List.getElem?_idxOf (h.mem_iff.mpr ha)
  · rw [List.getElem?_eq_getElem hlt]

theorem arc_to_ne_start (h : P.IsRoute R) (hab : (a, b) ∈ arcs R) : b ≠ P.start := by
  rintro rfl
  have := ((mem_arcs_iff h.nodup).mp hab).2
  rw [h.idxOf_start] at this
  omega

theorem arc_from_ne_finish (h : P.IsRoute R) (hab : (a, b) ∈ arcs R) : a ≠ P.finish := by
  rintro rfl
  obtain ⟨hb, hpos⟩ := (mem_arcs_iff h.nodup).mp hab
  have := h.idxOf_lt (h.mem_iff.mp hb)
  rw [h.idxOf_finish] at hpos
  omega

theorem not_precedes_of_arc (h : P.IsRoute R) (hab : (a, b) ∈ arcs R) : P.precedes b a = false := by
  rw [precedes, beq_eq_false_iff_ne]
  intro hd
  have := h.ordered b a hd
  have := ((mem_arcs_iff h.nodup).mp hab).2
  omega

/-- The pickup of the delivery would have to come before the start. -/
theorem not_delivery_of_start_arc (hP : P.WellFormed) (h : P.IsRoute R)
    (hab : (P.start, b) ∈ arcs R) : P.role? b ≠ some .delivery := by
  intro hrb
  obtain ⟨q, hq⟩ := hP.exists_pickup hrb
  have hrq := role_of_deliveryOf hq
  have hqb := h.ordered q b hq
  have hpos := ((mem_arcs_iff h.nodup).mp hab).2
  refine ne_of_role hrq hP.role_start (by decide) (h.idxOf_inj (hP.lt_of_role hrq) ?_)
  rw [h.idxOf_start] at hpos ⊢
  omega

/-- The delivery of the pickup would have to come behind the end. -/
theorem not_pickup_of_finish_arc (hP : P.WellFormed) (h : P.IsRoute R)
    (hab : (a, P.finish) ∈ arcs R) : P.role? a ≠ some .pickup := by
  intro hra
  obtain ⟨e, he⟩ := hP.exists_delivery hra
  have hre := hP.delivers he
  have hae := h.ordered a e he
  have hpos := ((mem_arcs_iff h.nodup).mp hab).2
  have helt := h.idxOf_lt (hP.lt_of_role hre)
  refine ne_of_role hre hP.role_finish (by decide) (h.idxOf_inj (hP.lt_of_role hre) ?_)
  rw [h.idxOf_finish] at hpos ⊢
  omega

/-- A request is served between the depots. -/
theorem not_depots_arc (hP : P.WellFormed) (hreq : P.pickups ≠ []) (h : P.IsRoute R) :
    (P.start, P.finish) ∉ arcs R := by
  intro hab
  obtain ⟨p, hp⟩ := List.exists_mem_of_ne_nil _ hreq
  rw [pickups, List.mem_filter, role_of_isPickup] at hp
  obtain ⟨d, hd⟩ := hP.exists_delivery hp.2
  have hpd := h.ordered p d hd
  have hlt := h.idxOf_lt (hP.lt_of_role (hP.delivers hd))
  have hpos := ((mem_arcs_iff h.nodup).mp hab).2
  rw [h.idxOf_start, h.idxOf_finish] at hpos
  refine ne_of_role hp.2 hP.role_start (by decide) (h.idxOf_inj (hP.lt_of_role hp.2) ?_)
  rw [h.idxOf_start]
  omega

/-- **The arcs of a route are admitted**, if there is a request at all. -/
theorem isFeasible (hP : P.WellFormed) (hreq : P.pickups ≠ []) (h : P.IsRoute R)
    (hab : (a, b) ∈ arcs R) : P.isFeasible a b = true := by
  have hb := h.arc_to_ne_start hab
  have ha := h.arc_from_ne_finish hab
  have hprec := h.not_precedes_of_arc hab
  have hne : a ≠ b := fun he => by
    have := ((mem_arcs_iff h.nodup).mp hab).2
    rw [he] at this
    omega
  rw [Instance.isFeasible, Bool.and_eq_true]
  refine ⟨by simp [hb, ha, hne, hprec], ?_⟩
  split
  · rename_i hra hrb
    cases hP.start_iff.mp hra
    exact absurd hrb (h.not_delivery_of_start_arc hP hab)
  · rename_i hra hrb
    cases hP.start_iff.mp hra
    cases hP.finish_iff.mp hrb
    exact absurd hab (h.not_depots_arc hP hreq)
  · rename_i hra hrb
    cases hP.finish_iff.mp hrb
    exact absurd hra (h.not_pickup_of_finish_arc hP hab)
  · rfl

/-- Where no arc costs less than nothing, a part of a route costs no more than the route. -/
theorem routeCost_prefix_le (h : P.IsRoute R)
    (hnonneg : ∀ a b, a < P.size → b < P.size → 0 ≤ P.cost a b) (hl : l <+: R) :
    P.routeCost l ≤ P.routeCost R := by
  obtain ⟨rest, rfl⟩ := hl
  have hlt : ∀ a ∈ l ++ rest, a < P.size := fun a ha => h.mem_iff.mp ha
  clear h
  induction rest generalizing l with
  | nil => rw [List.append_nil]
  | cons b rest ih =>
    have hstep : P.routeCost l ≤ P.routeCost (l ++ [b]) := by
      obtain rfl | ⟨l, a, rfl⟩ := l.eq_nil_or_concat'
      · exact Int.le_refl _
      · have hcost := hnonneg a b (hlt a (by simp)) (hlt b (by simp))
        rw [List.append_assoc, List.singleton_append, routeCost_concat]
        omega
    have hrest := ih (l := l ++ [b]) (by simpa using hlt)
    rw [List.append_assoc, List.singleton_append] at hrest
    exact Int.le_trans hstep hrest

end IsRoute

/-! ### The routes of an instance -/

theorem oneToOne_dearReturn : dearReturn.OneToOne := by
  intro a b d ha hb
  have hwf := wellFormed_dearReturn
  have hall : ∀ a < 6, ∀ b < 6, dearReturn.deliveryOf a = dearReturn.deliveryOf b ∧
      (dearReturn.deliveryOf a).isSome = true → a = b := by decide
  exact hall a (hwf.lt_of_role (role_of_deliveryOf ha)) b (hwf.lt_of_role (role_of_deliveryOf hb))
    ⟨ha.trans hb.symm, by rw [ha]; rfl⟩

theorem cost_dearReturn_nonneg (a b : Nat) (ha : a < dearReturn.size) (hb : b < dearReturn.size) :
    0 ≤ dearReturn.cost a b := by
  have hall : ∀ a < 6, ∀ b < 6, 0 ≤ dearReturn.cost a b := by decide
  exact hall a ha b hb

/-- The cheapest route serves the second request first. -/
theorem isRoute_dearReturn : dearReturn.IsRoute [0, 3, 4, 1, 2, 5] where
  first := rfl
  last := rfl
  visits := by decide
  ordered a b hab := by
    have hwf := wellFormed_dearReturn
    have hall : ∀ a < 6, ∀ b < 6, dearReturn.deliveryOf a = some b →
        [0, 3, 4, 1, 2, 5].idxOf a < [0, 3, 4, 1, 2, 5].idxOf b := by decide
    exact hall a (hwf.lt_of_role (role_of_deliveryOf hab)) b (hwf.lt_of_role (hwf.delivers hab)) hab

end Instance

end Fathom.Routing
