import Fathom.Proofs.Routing.Completion

/-!
# Arcs that some route uses

`Instance.isFeasible` tests an arc by the roles of its ends alone. Nothing that the roles leave open
is lost by that: what they demand is a strict order of the nodes (`Instance.leads`), the test admits
an arc only if its ends are not in the wrong order and no third node has to come between them, and
two such nodes can stand side by side in a route. The root of the search by successors, where no arc
is chosen yet, has them as candidates, and candidates are completed to routes
(`mem_candidates_iff`).

Two pickups may share a delivery here.

Results:
* `leads_eq_false_of_isFeasible`, `between_eq_false_of_isFeasible`: what the test says of the order;
* `mem_candidates_bare`: a node that passes the test is a candidate at the root;
* `Instance.isFeasible_iff_exists_route`: **the test admits exactly the arcs of routes**.
-/

namespace Fathom.Routing

namespace Instance

variable {P : Instance} {a b x : Nat}

theorem isFeasible_iff : P.isFeasible a b = true ↔
    b ≠ P.start ∧ a ≠ P.finish ∧ a ≠ b ∧ P.deliveryOf b ≠ some a ∧
      ¬(P.role? a = some .start ∧ P.role? b = some .delivery) ∧
      ¬(P.role? a = some .start ∧ P.role? b = some .finish) ∧
      ¬(P.role? a = some .pickup ∧ P.role? b = some .finish) := by
  simp only [isFeasible, precedes, Bool.and_eq_true, bne_iff_ne, Bool.not_eq_true',
    beq_eq_false_iff_ne, and_assoc]
  refine and_congr_right fun _ => and_congr_right fun _ => and_congr_right fun _ =>
    and_congr_right fun _ => ?_
  split <;> simp_all

/-- The ends of a feasible arc are not in the wrong order. -/
theorem leads_eq_false_of_isFeasible (h : P.isFeasible a b = true) : P.leads b a = false := by
  obtain ⟨hstart, hfinish, -, hprecedes, -⟩ := isFeasible_iff.mp h
  refine Bool.eq_false_iff.mpr fun hba => ?_
  obtain ⟨-, hb | ha | hd⟩ := Chains.leads_iff.mp hba
  · exact hstart hb
  · exact hfinish ha
  · exact hprecedes hd

/-- **No node has to come between the ends of a feasible arc.** -/
theorem between_eq_false_of_isFeasible (hP : P.WellFormed) (h : P.isFeasible a b = true)
    (hax : P.leads a x = true) : P.leads x b = false := by
  obtain ⟨-, -, -, -, hdelivery, hdepots, hpickup⟩ := isFeasible_iff.mp h
  refine Bool.eq_false_iff.mpr fun hxb => ?_
  obtain ⟨hne, hax⟩ := Chains.leads_iff.mp hax
  obtain ⟨hne', hxb⟩ := Chains.leads_iff.mp hxb
  obtain rfl | rfl | hax := hax
  · obtain hx | rfl | hxb := hxb
    · exact hne hx.symm
    · exact hdepots ⟨hP.role_start, hP.role_finish⟩
    · exact hdelivery ⟨hP.role_start, hP.delivers hxb⟩
  · obtain hx | hb | hxb := hxb
    · exact hP.start_ne_finish hx.symm
    · exact hne' hb.symm
    · exact ne_of_role (role_of_deliveryOf hxb) hP.role_finish (by decide) rfl
  · obtain rfl | rfl | hxb := hxb
    · exact ne_of_role (hP.delivers hax) hP.role_start (by decide) rfl
    · exact hpickup ⟨role_of_deliveryOf hax, hP.role_finish⟩
    · exact ne_of_role (hP.delivers hax) (role_of_deliveryOf hxb) (by decide) rfl

end Instance

namespace Chains

variable {P : Instance} {a b : Nat}

/-- **A node that may follow is a candidate at the root.** -/
theorem mem_candidates_bare (hP : P.WellFormed) (ha : a < P.size) (hb : b < P.size)
    (h : P.isFeasible a b = true) : b ∈ (bare P none).candidates a := by
  obtain ⟨hstart, -, hne, -⟩ := Instance.isFeasible_iff.mp h
  have hbare : (bare P none).Coherent P := coherent_bare hP none
  have hwrong := Instance.leads_eq_false_of_isFeasible h
  refine List.mem_filter.mpr ⟨hbare.targets.mpr ⟨hb, hstart, prev_bare⟩, ?_⟩
  refine (mayJoin_iff hbare ha).mpr ⟨fun hm => ?_, fun hm => ?_, fun x hx hx' => ?_,
    fun x hx hx' => ?_⟩
  · exact hne (mem_chain_bare.mp hm).2
  · have hba := (mem_before_bare.mp hm).2.2
    rw [hwrong] at hba
    cases hba
  · have hba := leads_trans hP (mem_after_bare.mp hx').2.2 (mem_before_bare.mp hx).2.2
    rw [hwrong] at hba
    cases hba
  · have hxb := (mem_before_bare.mp hx').2.2
    rw [Instance.between_eq_false_of_isFeasible hP h (mem_after_bare.mp hx).2.2] at hxb
    cases hxb

end Chains

namespace Instance

variable {P : Instance} {a b : Nat}

/-- **An arc is feasible exactly if some route uses it.** In an instance with a request, the test by
roles admits the arc from `a` to `b` iff there is a route in which `b` comes right after `a`. -/
theorem isFeasible_iff_exists_route {d : Draft} (htyped : d.Typed) (h : ofDraft d = .ok P)
    (hreq : P.pickups ≠ [])
    (ha : a < P.size) (hb : b < P.size) :
    P.isFeasible a b = true ↔ ∃ R, P.IsRoute R ∧ (a, b) ∈ arcs R := by
  have hP := wellFormed_of_ofDraft htyped h
  constructor
  · intro hab
    have hcandidate := Chains.mem_candidates_bare hP ha hb hab
    obtain ⟨R, hR, -, harc⟩ := (Chains.mem_candidates_iff (Chains.coherent_bare hP none)
      Chains.sound_bare hP ha Chains.successor_bare).mp hcandidate
    exact ⟨R, hR, harc⟩
  · rintro ⟨R, hR, harc⟩
    exact hR.isFeasible hP hreq harc

/-- The second request may be begun right after the first is done, but not the first again. -/
theorem dearReturn_feasible : dearReturnDraft.Typed ∧
    ofDraft dearReturnDraft = .ok dearReturn ∧ dearReturn.pickups ≠ [] ∧
    (1 < dearReturn.size ∧ 2 < dearReturn.size ∧ 3 < dearReturn.size) ∧
    (∃ R, dearReturn.IsRoute R ∧ (2, 3) ∈ arcs R) ∧
    ¬∃ R, dearReturn.IsRoute R ∧ (2, 1) ∈ arcs R := by
  have hreq : dearReturn.pickups ≠ [] := by decide
  have hone : 1 < dearReturn.size := by decide
  have htwo : 2 < dearReturn.size := by decide
  have hthree : 3 < dearReturn.size := by decide
  have hnext := isFeasible_iff_exists_route typed_dearReturn ofDraft_dearReturn hreq htwo hthree
  have hback := isFeasible_iff_exists_route typed_dearReturn ofDraft_dearReturn hreq htwo hone
  exact ⟨typed_dearReturn, ofDraft_dearReturn, hreq, ⟨hone, htwo, hthree⟩, hnext.mp (by decide),
    fun hroute => absurd (hback.mpr hroute) (by decide)⟩

end Instance

end Fathom.Routing
