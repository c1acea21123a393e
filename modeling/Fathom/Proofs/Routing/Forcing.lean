import Fathom.Proofs.Routing.Relaxation

/-!
# Forced arcs

To force an arc, the relaxation prices its rivals, the other arcs to the same node, at
`Assignment.forbidden`. That is a finite price, and nothing in the method of solving keeps away from
it: an optimal assignment uses no such arc because a cheaper one is there without it. A route that
has the forced arcs is such an assignment as long as it costs less than `forbidden`, closed by the
arc back to the start, and if no cost is negative no arc of an optimal assignment is as dear as
that.

`Forces` tells what a relaxation knows after any number of arcs of a route have been forced, each
solved anew: the route is admitted, and the prices are those of the instance except for the rivals
of the arcs forced so far.

Results:
* `Forces.force`, `Forces.forceAll`: forcing an arc of the route, or several, answers;
* `Forces.price_lt`: the optimal assignment uses no arc priced `forbidden`;
* `Optimal.value_le_value`: dearer arcs make a dearer optimum;
* `forceAll_forces`: **the arcs of a prefix are forced**, at no more than the closed route costs.
-/

namespace Fathom.Routing

variable {P : Instance} {R : List Nat} {i j : Nat}

/-- The arcs of a prefix are arcs of the route. -/
theorem arcs_subset {l : List Nat} (h : l <+: R) : arcs l ⊆ arcs R := by
  rintro ⟨a, b⟩ hab
  obtain ⟨k, ha, hb⟩ := mem_arcs_iff_getElem?.mp hab
  have hget : ∀ {k a}, l[k]? = some a → R[k]? = some a := fun hk => by
    obtain ⟨hlt, hk⟩ := List.getElem?_eq_some_iff.mp hk
    rw [← hk, ← List.prefix_iff_getElem?.mp h _ hlt]
  exact mem_arcs_iff_getElem?.mpr ⟨k, hget ha, hget hb⟩

/-! ## The prices of forced arcs -/

/-- The arc from `i` to `j` competes with one of these: it leads to the same node from another. -/
def Competes (forced : List (Nat × Nat)) (i j : Nat) : Prop :=
  ∃ arc ∈ forced, i ≠ arc.1 ∧ j = arc.2

instance (forced : List (Nat × Nat)) : Decidable (Competes forced i j) :=
  inferInstanceAs (Decidable (∃ arc ∈ forced, i ≠ arc.1 ∧ j = arc.2))

theorem competes_append_singleton {forced : List (Nat × Nat)} {o t : Nat} :
    Competes (forced ++ [(o, t)]) i j ↔ (i ≠ o ∧ j = t) ∨ Competes forced i j := by
  simp only [Competes, List.mem_append, List.mem_singleton, or_and_right, exists_or,
    exists_eq_left]
  exact or_comm

/-- The price of an arc in the relaxation that has to use the arcs `forced`. -/
def Instance.forcedPrice (P : Instance) (forced : List (Nat × Nat)) (i j : Nat) : Int :=
  if Competes forced i j then Assignment.forbidden else P.arcPrice i j

namespace Instance

variable {forced forced' : List (Nat × Nat)}

theorem arcPrice_nonneg (hnonneg : 0 ≤ P.cost i j) : 0 ≤ P.arcPrice i j := by
  unfold arcPrice
  split
  · exact hnonneg
  · exact Int.le_of_lt (by decide)

theorem arcPrice_le (hle : P.cost i j ≤ Assignment.forbidden) :
    P.arcPrice i j ≤ Assignment.forbidden := by
  unfold arcPrice
  split
  · exact hle
  · exact Int.le_refl _

theorem forcedPrice_nonneg (hnonneg : 0 ≤ P.cost i j) : 0 ≤ P.forcedPrice forced i j := by
  unfold forcedPrice
  split
  · exact Int.le_of_lt (by decide)
  · exact arcPrice_nonneg hnonneg

/-- Forcing more arcs makes no arc cheaper, if none is dearer than forbidden. -/
theorem forcedPrice_mono (hsub : forced ⊆ forced') (hle : P.cost i j ≤ Assignment.forbidden) :
    P.forcedPrice forced i j ≤ P.forcedPrice forced' i j := by
  unfold forcedPrice
  by_cases hc : Competes forced i j
  · obtain ⟨arc, harc, hcompetes⟩ := id hc
    rw [if_pos hc, if_pos ⟨arc, hsub harc, hcompetes⟩]
  · rw [if_neg hc]
    split
    · exact arcPrice_le hle
    · exact Int.le_refl _

/-- An arc cheaper than forbidden is one of the instance that does not compete. -/
theorem usable_of_forcedPrice_lt (h : P.forcedPrice forced i j < Assignment.forbidden) :
    ¬Competes forced i j ∧ ((i = P.finish ∧ j = P.start) ∨ P.isFeasible i j = true) := by
  unfold forcedPrice at h
  split at h
  · exact absurd h (Int.lt_irrefl _)
  · next hc =>
    refine ⟨hc, ?_⟩
    unfold arcPrice at h
    split at h
    · assumption
    · exact absurd h (Int.lt_irrefl _)

end Instance

namespace Assignment

variable {a b : Assignment} {most : Int} {forced forced' more : List (Nat × Nat)} {o t : Nat}

/-! ## Dearer problems -/

/-- **Dearer arcs make a dearer optimum.** -/
theorem Optimal.value_le_value {p : Equiv.Perm (Fin a.costs.size)}
    {q : Equiv.Perm (Fin b.costs.size)} (ha : Optimal a p) (hb : Optimal b q)
    (hsize : a.costs.size = b.costs.size)
    (hle : ∀ i j, i < a.costs.size → j < a.costs.size → cost a.costs i j ≤ cost b.costs i j) :
    a.value ≤ b.value := by
  -- the optimal permutation of the dearer problem, between the indices of the other one
  let e : Fin a.costs.size ≃ Fin b.costs.size := finCongr hsize
  let q' : Equiv.Perm (Fin a.costs.size) := (e.trans q).trans e.symm
  have hval : ∀ i, (q' i : Nat) = q (e i) := fun _ => rfl
  calc a.value ≤ total a.costs q' := ha.least q'
    _ ≤ ∑ i, cost b.costs (e i) (q (e i)) :=
        Finset.sum_le_sum fun i _ => hval i ▸ hle i (q' i) i.2 (q' i).2
    _ = total b.costs q := Equiv.sum_comp e fun i => cost b.costs i (q i)
    _ = b.value := hb.value.symm

/-! ## Forcing arcs -/

/-- The relaxation that has to use these arcs, forced one after the other. -/
def forceAll (a : Assignment) (arcs : List (Nat × Nat)) : Except Fault Assignment :=
  arcs.foldlM (fun a arc => a.force arc.1 arc.2) a

/-- **The invariant of forcing**: the relaxation is solved and admits the route, and its prices are
those of the arcs `forced`. -/
structure Forces (P : Instance) (most : Int) (R : List Nat) (forced : List (Nat × Nat))
    (a : Assignment) : Prop where
  serves : Serves P most (· = R) a
  prices : ∀ i j, i < P.size → j < P.size → cell a.costs i j = .ok (P.forcedPrice forced i j)

/-- In the relaxation of an instance nothing is forced yet. -/
theorem exists_forces (hP : P.WellFormed) (hreq : P.pickups ≠ []) (hbounded : P.Bounded most)
    (hroom : 4 * (P.size + 1) * max most forbidden ≤ Cost.greatest) :
    ∃ a, P.relaxation = .ok a ∧ ∀ R, Forces P (max most forbidden) R [] a := by
  obtain ⟨a, ha, hserves⟩ := serves_relaxation hP hreq hbounded hroom
  obtain ⟨a', ha', -, hprices⟩ := exists_relaxation hbounded hroom
  cases ha.symm.trans ha'
  refine ⟨a, ha, fun R => ⟨hserves.mono fun _ _ _ => trivial, fun i j hi hj => ?_⟩⟩
  have hnone : ¬Competes [] i j := fun ⟨_, hm, _⟩ => List.not_mem_nil hm
  rw [hprices i j hi hj, Instance.forcedPrice, if_neg hnone]

namespace Forces

/-- **Forcing an arc of the route answers.** -/
theorem force (h : Forces P most R forced a) (hmost : forbidden ≤ most) (hR : P.IsRoute R)
    (harc : (o, t) ∈ arcs R) :
    ∃ b, a.force o t = .ok b ∧ Forces P most R (forced ++ [(o, t)]) b := by
  have ht : t < P.size := hR.mem_iff.mp (mem_right_of_arc harc)
  have hlt : ∀ arc ∈ a.rivals o t, arc.1 < P.size ∧ arc.2 < P.size := by
    intro arc hm
    obtain ⟨hlt, -, htarget⟩ := mem_rivals.mp hm
    exact ⟨h.serves.size ▸ hlt, htarget ▸ ht⟩
  have hfree : ∀ R', P.IsRoute R' → R' = R →
      R' = R ∧ ∀ arc ∈ a.rivals o t, arc ∉ P.closedArcs R' := by
    rintro R' - rfl
    exact ⟨rfl, fun arc hm => not_mem_closedArcs_of_rival hR harc hm⟩
  obtain ⟨b, hb, hserves⟩ := h.serves.without hmost hlt hfree
  refine ⟨b, hb, hserves, fun i j hi hj => ?_⟩
  have hiff : (i, j) ∈ a.rivals o t ↔ i ≠ o ∧ j = t := by
    rw [mem_rivals, h.serves.size]
    exact and_iff_right hi
  rw [cell_without hb h.serves.ready hmost, h.prices i j hi hj, Instance.forcedPrice,
    Instance.forcedPrice]
  simp only [hiff, competes_append_singleton]
  by_cases hnew : i ≠ o ∧ j = t
  · rw [if_pos hnew, if_pos (.inl hnew)]
  · simp only [if_neg hnew, or_iff_right hnew]

/-- **Forcing arcs of the route answers**, however many there are. -/
theorem forceAll (h : Forces P most R forced a) (hmost : forbidden ≤ most) (hR : P.IsRoute R)
    (hmore : more ⊆ arcs R) :
    ∃ b, a.forceAll more = .ok b ∧ Forces P most R (forced ++ more) b := by
  induction more generalizing a forced with
  | nil => exact ⟨a, rfl, (List.append_nil forced).symm ▸ h⟩
  | cons arc more ih =>
    obtain ⟨harc, hmore⟩ := List.cons_subset.mp hmore
    obtain ⟨b, hb, hforces⟩ := h.force hmost hR harc
    obtain ⟨c, hc, hall⟩ := ih hforces hmore
    refine ⟨c, bind_eq_ok_iff.mpr ⟨b, hb, hc⟩, ?_⟩
    rwa [List.append_assoc] at hall

/-- **No arc of an optimal assignment is as dear as a forbidden one**: all of them together cost
less than that. -/
theorem price_lt (h : Forces P most R forced a) {p : Equiv.Perm (Fin a.costs.size)}
    (hp : Optimal a p) (hnonneg : ∀ i j, i < P.size → j < P.size → 0 ≤ P.cost i j)
    (hR : P.IsRoute R) (hcheap : P.closedCost R < forbidden) (i : Fin a.costs.size) :
    P.forcedPrice forced i (p i) < forbidden := by
  have hlt : ∀ k : Fin a.costs.size, (k : Nat) < P.size := fun k => h.serves.size ▸ k.2
  have hprice : ∀ k : Fin a.costs.size,
      cost a.costs k (p k) = P.forcedPrice forced k (p k) := fun k =>
    cost_of_cell (h.prices k (p k) (hlt k) (hlt (p k)))
  calc P.forcedPrice forced i (p i) = cost a.costs i (p i) := (hprice i).symm
    _ ≤ total a.costs p :=
        Finset.single_le_sum (f := fun k : Fin a.costs.size => cost a.costs k (p k))
          (fun k _ => hprice k ▸ Instance.forcedPrice_nonneg (hnonneg _ _ (hlt k) (hlt (p k))))
          (Finset.mem_univ i)
    _ = a.value := hp.value.symm
    _ ≤ P.closedCost R := h.serves.value_le hR rfl
    _ < forbidden := hcheap

/-- **A forced arc is used**: some arc leads to its end, and the others compete with it. -/
theorem column_eq (h : Forces P most R forced a) {p : Equiv.Perm (Fin a.costs.size)}
    (hcolumns : ∀ i : Fin a.costs.size, a.columns[(i : Nat)]? = some (p i : Nat))
    (husable : ∀ i : Fin a.costs.size, ¬Competes forced i (p i)) (harc : (o, t) ∈ forced)
    (ht : t < P.size) : a.columns[o]? = some t := by
  obtain ⟨i, hi⟩ := p.surjective ⟨t, h.serves.size.symm ▸ ht⟩
  have hio : (i : Nat) = o := by
    by_contra hne
    exact husable i ⟨(o, t), harc, hne, congrArg Fin.val hi⟩
  rw [← hio, hcolumns i, hi]

/-- Forcing more arcs does not lower the value, if no arc is dearer than forbidden. -/
theorem value_le_value (h : Forces P most R forced a) (h' : Forces P most R forced' b)
    (hsub : forced ⊆ forced')
    (hle : ∀ i j, i < P.size → j < P.size → P.cost i j ≤ forbidden) : a.value ≤ b.value := by
  obtain ⟨p, hp⟩ := h.serves.optimal
  obtain ⟨q, hq⟩ := h'.serves.optimal
  refine hp.value_le_value hq (h.serves.size.trans h'.serves.size.symm) fun i j hi hj => ?_
  rw [h.serves.size] at hi hj
  rw [cost_of_cell (h.prices i j hi hj), cost_of_cell (h'.prices i j hi hj)]
  exact Instance.forcedPrice_mono hsub (hle i j hi hj)

end Forces

/-- **Forcing an arc really forces it.** In an instance with a request, let a route cost less than
`forbidden` together with the arc from the end depot back to the start. Forcing the arcs of any of
its prefixes one after the other answers with an optimal assignment that uses all of them, and
otherwise only arcs that are feasible, or lead back to the start, and compete with none of them. It
costs no more than the closed route and, if no arc costs more than `forbidden`, no less than the
assignment of any shorter prefix. -/
theorem forceAll_forces {d : Draft} {M : Int} {l : List Nat} (htyped : d.Typed)
    (h : Instance.ofDraft d = .ok P) (hreq : P.pickups ≠ [])
    (hcosts : ∀ i j, i < P.size → j < P.size → 0 ≤ P.cost i j ∧ P.cost i j ≤ M)
    (hroom : 4 * (P.size + 1) * max M forbidden ≤ Cost.greatest) (hR : P.IsRoute R)
    (hcheap : P.closedCost R < forbidden) (hl : l <+: R) :
    ∃ a b, P.relaxation = .ok a ∧ a.forceAll (arcs l) = .ok b ∧ (∃ p, Optimal b p) ∧
      (∀ arc ∈ arcs l, b.columns[arc.1]? = some arc.2) ∧
      (∀ i < P.size, ∃ j, b.columns[i]? = some j ∧
        ((i = P.finish ∧ j = P.start) ∨ P.isFeasible i j = true) ∧
        ∀ arc ∈ arcs l, (i, j) ∉ a.rivals arc.1 arc.2) ∧
      b.value ≤ P.closedCost R ∧
      ((∀ i j, i < P.size → j < P.size → P.cost i j ≤ forbidden) →
        ∀ l', l' <+: l → ∃ c, a.forceAll (arcs l') = .ok c ∧ c.value ≤ b.value) := by
  have hP := Instance.wellFormed_of_ofDraft htyped h
  have hmost : forbidden ≤ max M forbidden := Int.le_max_right ..
  have hbounded : P.Bounded M := fun i j hi hj => by
    have := hcosts i j hi hj
    omega
  obtain ⟨a, ha, hstart⟩ := exists_forces hP hreq hbounded hroom
  have hprefix : ∀ {l}, l <+: R →
      ∃ b, a.forceAll (arcs l) = .ok b ∧ Forces P (max M forbidden) R (arcs l) b := fun hl =>
    (hstart R).forceAll hmost hR (arcs_subset hl)
  obtain ⟨b, hb, hforces⟩ := hprefix hl
  obtain ⟨p, hp⟩ := hforces.serves.optimal
  have husable := fun i => Instance.usable_of_forcedPrice_lt
    (hforces.price_lt hp (fun i j hi hj => (hcosts i j hi hj).1) hR hcheap i)
  refine ⟨a, b, ha, hb, ⟨p, hp⟩, fun arc harc => ?_, fun i hi => ?_, hforces.serves.value_le hR rfl,
    fun hle l' hl' => ?_⟩
  · have ht : arc.2 < P.size :=
      hR.mem_iff.mp (mem_right_of_arc (arcs_subset hl harc))
    exact hforces.column_eq hp.columns (fun i => (husable i).1) harc ht
  · obtain ⟨hfree, hfeasible⟩ := husable ⟨i, hforces.serves.size.symm ▸ hi⟩
    refine ⟨_, hp.columns ⟨i, hforces.serves.size.symm ▸ hi⟩, hfeasible, fun arc harc hm => ?_⟩
    obtain ⟨-, hne, htarget⟩ := mem_rivals.mp hm
    exact hfree ⟨arc, harc, hne, htarget⟩
  · obtain ⟨c, hc, hforces'⟩ := hprefix (hl'.trans hl)
    exact ⟨c, hc, hforces'.value_le_value hforces (arcs_subset hl') hle⟩

/-- Once the visits `3` and `4` follow the start, the route that goes on with `1` and `2` bounds the
value, and each arc of the prefix is used. -/
theorem dearReturn_forces : Instance.dearReturnDraft.Typed ∧
    Instance.ofDraft Instance.dearReturnDraft = .ok Instance.dearReturn ∧
    Instance.dearReturn.IsRoute [0, 3, 4, 1, 2, 5] ∧
    Instance.dearReturn.closedCost [0, 3, 4, 1, 2, 5] < forbidden ∧
    ∃ a b, Instance.dearReturn.relaxation = .ok a ∧ a.forceAll [(0, 3), (3, 4)] = .ok b ∧
      b.columns[0]? = some 3 ∧ b.columns[3]? = some 4 ∧
      b.value ≤ Instance.dearReturn.closedCost [0, 3, 4, 1, 2, 5] ∧
      ∃ c, a.forceAll [] = .ok c ∧ c.value ≤ b.value := by
  have hR := Instance.isRoute_dearReturn
  have hcheap : Instance.dearReturn.closedCost [0, 3, 4, 1, 2, 5] < forbidden := by decide
  have hbounded := Instance.bounded_dearReturn
  obtain ⟨a, b, ha, hb, -, harcs, -, hvalue, hmono⟩ := forceAll_forces
    Instance.typed_dearReturn Instance.ofDraft_dearReturn (by decide)
    (fun i j hi hj => ⟨Instance.cost_dearReturn_nonneg i j hi hj, (hbounded i j hi hj).2⟩)
    (by decide) hR hcheap (l := [0, 3, 4]) ⟨[1, 2, 5], rfl⟩
  have hle : ∀ i j, i < Instance.dearReturn.size → j < Instance.dearReturn.size →
      Instance.dearReturn.cost i j ≤ forbidden := fun i j hi hj =>
    Int.le_trans (hbounded i j hi hj).2 (by decide)
  exact ⟨Instance.typed_dearReturn, Instance.ofDraft_dearReturn, hR, hcheap, a, b, ha, hb,
    harcs (0, 3) (by decide), harcs (3, 4) (by decide), hvalue, hmono hle [0] ⟨[3, 4], rfl⟩⟩

end Assignment

end Fathom.Routing
