import Fathom.Proofs.Routing.Exploration
import Mathlib.Logic.Relation

/-!
# What a state knows of the order of the nodes

A state knows that one node comes before another if every route with the arcs chosen so far passes
them in that order: what it knows is true (`Sound`), and it knows all that is. For if nothing is
known of two nodes on different chains, some route passes them in either order
(`exists_route_reversed`). To pass `y` before `x`, the thread of the start is continued by the
threads that have to come before `y` and then by the thread of `y`, and `x` is on none of these.

Results:
* `Coherent.mem_chain_iff`: the nodes on one chain are those that the chosen arcs join;
* `precedences_complete`: the nodes known to come before a node, or after it, are the ones that do
  so in every route with the arcs chosen so far.
-/

namespace Fathom.Routing.Chains

open Relation (ReflTransGen)

variable {P : Instance} {s : Chains} {a b x y : Nat} {c R : List Nat} {order : List Nat}

/-! ## Chains -/

/-- The arcs chosen so far lead from one of the two nodes to the other. -/
def SameChain (s : Chains) (x y : Nat) : Prop :=
  ReflTransGen (fun a b => s.successor a = some b) x y ∨
    ReflTransGen (fun a b => s.successor a = some b) y x

/-- A thread leads on to the nodes behind. -/
theorem leads_on (hc : (a :: c).IsChain fun a b => s.successor a = some b) (hb : b ∈ a :: c) :
    ReflTransGen (fun a b => s.successor a = some b) a b := by
  induction c generalizing a with
  | nil => rw [List.mem_singleton.mp hb]
  | cons d c ih =>
    obtain rfl | hb := List.mem_cons.mp hb
    · exact .refl
    · rw [List.isChain_cons_cons] at hc
      exact .head hc.1 (ih hc.2 hb)

/-- Of two nodes of a thread, one leads on to the other. -/
theorem Thread.sameChain (h : Thread P s c) (hx : x ∈ c) (hy : y ∈ c) : s.SameChain x y := by
  obtain ⟨l, r, rfl⟩ := List.append_of_mem hx
  obtain hy | hy := List.mem_append.mp hy
  · obtain ⟨l, m, rfl⟩ := List.append_of_mem hy
    rw [List.append_assoc, List.cons_append] at h
    exact .inr (leads_on h.linked.right_of_append (by simp))
  · exact .inl (leads_on h.linked.right_of_append hy)

namespace Coherent

variable (h : s.Coherent P)

include h

/-- A node is on the chain of its successor. -/
theorem mem_chain_of_successor (hab : s.successor a = some b) : a ∈ (s.link b).chain := by
  obtain ⟨c, ha, hc⟩ := h.thread (h.lt_of_successor hab)
  have hb := mem_right_of_arc (hc.mem_arcs ha hab)
  exact (hc.chain hb).mpr ha

theorem mem_chain_of_leads_on (hx : x < P.size)
    (hxy : ReflTransGen (fun a b => s.successor a = some b) x y) : x ∈ (s.link y).chain := by
  induction hxy with
  | refl => exact h.mem_chain_self hx
  | tail _ hab ih => rwa [← h.chain_eq (h.mem_chain_of_successor hab)]

/-- **The nodes on one chain are those that the chosen arcs join.** -/
theorem mem_chain_iff (hx : x < P.size) (hy : y < P.size) :
    x ∈ (s.link y).chain ↔ s.SameChain x y := by
  constructor
  · intro hxy
    obtain ⟨c, hyc, hc⟩ := h.thread hy
    exact hc.sameChain ((hc.chain hyc).mp hxy) hyc
  · rintro (hxy | hyx)
    · exact h.mem_chain_of_leads_on hx hxy
    · exact h.mem_chain_comm.mp (h.mem_chain_of_leads_on hy hyx)

/-! ## Passing two nodes in the other order -/

/-- The thread of the start comes before all others. -/
theorem mem_before_of_start (hP : P.WellFormed) (hx : x ∈ (s.link P.start).chain) (hy : y < P.size)
    (hxy : x ∉ (s.link y).chain) : x ∈ (s.link y).before := by
  have hstart : P.start ∉ (s.link y).chain := fun hm => hxy (h.chain_eq hm ▸ hx)
  have hne : P.start ≠ y := fun he => hstart (he ▸ h.mem_chain_self hP.start_lt)
  exact h.chain_before hx (h.leads hP.start_lt hy (leads_iff.mpr ⟨hne, .inl rfl⟩) hstart)

/-- The thread of the start can be continued towards `y`, by one that has to come before it or by
its own. -/
theorem exists_joins_towards (hP : P.WellFormed) (hy : y < P.size)
    (hstart : y ∉ (s.link P.start).chain) : ∃ o t, o ∈ (s.link P.start).chain ∧ Joins P s o t ∧
      (t ∈ (s.link y).chain ∨ t ∈ (s.link y).before) := by
  have hne : s.targets.filter
      (fun t => decide (t ∈ (s.link y).chain ∨ t ∈ (s.link y).before)) ≠ [] := by
    obtain ⟨z, hz, rfl | htarget⟩ := h.exists_head hy
    · exact absurd (h.mem_chain_comm.mp hz) hstart
    · exact List.ne_nil_of_mem (List.mem_filter.mpr ⟨htarget, decide_eq_true (.inl hz)⟩)
  obtain ⟨t, ht, hleast⟩ := exists_least (r := fun a b => a ∈ (s.link b).before)
    (fun _ => h.not_before_self) h.trans hne
  obtain ⟨htarget, htowards⟩ := List.mem_filter.mp ht
  have htowards := of_decide_eq_true htowards
  have hbefore : ∀ a, a ∈ (s.link t).before → a ∈ (s.link y).before := fun a ha =>
    htowards.elim (h.before_of_chain ha) (h.trans ha)
  obtain ⟨o, ho, hjoin⟩ := h.joins_of_least hP htarget fun a ha hat =>
    hleast a (List.mem_filter.mpr ⟨ha, decide_eq_true (.inr (hbefore a hat))⟩) hat
  exact ⟨o, t, ho, hjoin, htowards⟩

end Coherent

/-- A node that need not come before `y` does not come to do so by a choice towards `y`. -/
theorem Joins.not_upTo (h : Joins P s a b) (hP : P.WellFormed) (ha : a ∈ (s.link P.start).chain)
    (hb : b ∈ (s.link y).chain ∨ b ∈ (s.link y).before) (hx : x ∉ (s.link P.start).chain)
    (hchain : x ∉ (s.link y).chain) (hbefore : x ∉ (s.link y).before) : ¬UpTo s a b x := by
  have hs := h.coherent
  rintro ((hxa | hxb) | hxa | hxb)
  · exact hx (hs.chain_eq ha ▸ hxa)
  · exact hb.elim (fun hb => hchain (hs.chain_eq hb ▸ hxb))
      fun hb => hbefore (hs.chain_before hxb hb)
  · exact hs.not_mem_before_start hP (hs.before_eq ha ▸ hxa)
  · exact hb.elim (fun hb => hbefore (hs.before_of_chain hxb hb))
      fun hb => hbefore (hs.trans hxb hb)

/-- **Some route passes `y` before `x`** if `x` is not known to come before `y`. -/
theorem Coherent.exists_route_reversed (h : s.Coherent P) (hsound : Sound P s) (hP : P.WellFormed)
    (hx : x < P.size) (hy : y < P.size) (hchain : x ∉ (s.link y).chain)
    (hbefore : x ∉ (s.link y).before) :
    ∃ R, P.IsRoute R ∧ s.KeptBy R ∧ R.idxOf y < R.idxOf x := by
  induction hn : s.targets.length using Nat.strongRecOn generalizing s with
  | ind n ih =>
    have hxstart : x ∉ (s.link P.start).chain := fun hm =>
      hbefore (h.mem_before_of_start hP hm hy hchain)
    by_cases hystart : y ∈ (s.link P.start).chain
    · obtain ⟨R, hR, hkept⟩ := h.exists_route hP
      have hyx : y ∈ (s.link x).before :=
        h.mem_before_of_start hP hystart hx fun hm => hchain (h.mem_chain_comm.mp hm)
      exact ⟨R, hR, hkept, hsound R hR hkept y x hyx⟩
    · obtain ⟨o, t, ho, hjoin, ht⟩ := h.exists_joins_towards hP hy hystart
      have hup := hjoin.not_upTo hP ho ht hxstart hchain hbefore
      have hless : (s.tie P none o t).targets.length < n := by
        rw [tie_targets, ← hn]
        exact List.length_filter_lt_length_iff_exists.mpr ⟨t, hjoin.mem_targets, by simp⟩
      obtain ⟨R, hR, hkept, hyx⟩ := ih _ hless hjoin.coherent_tie (hsound.tie hjoin)
        (fun hm => (hjoin.mem_chain_tie.mp hm).elim hchain fun hm => hup (.inl hm.1))
        (fun hm => (hjoin.mem_before_tie.mp hm).2.elim hbefore fun hm => hup hm.1) rfl
      exact ⟨R, hR, (hjoin.keptBy_tie.mp hkept).1, hyx⟩

/-- **What is known of two nodes is all there is to know.** -/
theorem Coherent.mem_before_iff (h : s.Coherent P) (hsound : Sound P s) (hP : P.WellFormed)
    (hx : x < P.size) (hy : y < P.size) (hchain : x ∉ (s.link y).chain) :
    x ∈ (s.link y).before ↔ ∀ R, P.IsRoute R → s.KeptBy R → R.idxOf x < R.idxOf y := by
  refine ⟨fun hxy R hR hkept => hsound R hR hkept x y hxy, fun hall => by_contra fun hxy => ?_⟩
  obtain ⟨R, hR, hkept, hyx⟩ := h.exists_route_reversed hsound hP hx hy hchain hxy
  exact Nat.lt_asymm hyx (hall R hR hkept)

/-! ## The search tree -/

theorem mem_mustPrecede (hsize : s.size = P.size) (hx : x < P.size) :
    x ∈ s.mustPrecede y ↔ x ∈ (s.link y).before := by
  rw [mustPrecede, NodeSet.mem_members, hsize]
  exact and_iff_right hx

theorem mem_mustFollow (hsize : s.size = P.size) (hx : x < P.size) :
    x ∈ s.mustFollow y ↔ x ∈ (s.link y).after := by
  rw [mustFollow, NodeSet.mem_members, hsize]
  exact and_iff_right hx

/-- **The precedences of a state are exact.** In every state that expansions reach, whatever their
hints, and for two nodes that the chosen arcs do not join, `x` is known to come before `y` just if
`y` is known to come after `x`, and just if every route with the arcs chosen so far passes `x`
before `y`. Nothing is known of the order of two nodes that the arcs join. -/
theorem precedences_complete {d : Draft} (htyped : d.Typed) (hP : Instance.ofDraft d = .ok P)
    (rule : DecisionRule) (infer : Bool) {r : Chains} (hr : root P infer = .ok r) (width : Nat)
    (narrate : Bool) {n : Nat}
    (hs : Steps (domain P (decisionOrder P rule) width narrate).Leads n r s) (hx : x < P.size)
    (hy : y < P.size) :
    (¬s.SameChain x y → (x ∈ s.mustPrecede y ↔ y ∈ s.mustFollow x) ∧
      (x ∈ s.mustPrecede y ↔
        ∀ R, P.IsRoute R → s.KeptBy R → R.idxOf x < R.idxOf y)) ∧
    (s.SameChain x y → x ∉ s.mustPrecede y ∧ x ∉ s.mustFollow y) := by
  have hwf := Instance.wellFormed_of_ofDraft htyped hP
  obtain ⟨relaxation, -, rfl⟩ := root_eq_ok_iff.mp hr
  have hroot : Explored P (decisionOrder P rule) (bare P relaxation) :=
    explored_bare hwf relaxation
  have h := hroot.of_steps (decides_decisionOrder P rule) hs
  have hc := h.coherent
  rw [← hc.mem_chain_iff hx hy, mem_mustPrecede hc.size hx, mem_mustFollow hc.size hy,
    mem_mustFollow hc.size hx]
  refine ⟨fun hchain => ⟨hc.converse, hc.mem_before_iff h.sound hwf hx hy hchain⟩,
    fun hchain => ⟨fun hbefore => hc.apart hbefore hchain, fun hafter => ?_⟩⟩
  exact hc.apart (hc.converse.mpr hafter) (hc.mem_chain_comm.mp hchain)

/-- Once the start is followed by the first pickup, that is served before the second one. -/
theorem dearReturn_precedences : Instance.dearReturnDraft.Typed ∧
    Instance.ofDraft Instance.dearReturnDraft = .ok Instance.dearReturn ∧
    root Instance.dearReturn false = .ok (bare Instance.dearReturn none) ∧
    let s := (bare Instance.dearReturn none).tie Instance.dearReturn none 0 1
    Steps (domain Instance.dearReturn (decisionOrder Instance.dearReturn .input) 1 false).Leads 1
      (bare Instance.dearReturn none) s ∧
    1 < Instance.dearReturn.size ∧ 3 < Instance.dearReturn.size ∧ ¬s.SameChain 1 3 ∧
    3 ∈ s.mustFollow 1 ∧
    ∀ R, Instance.dearReturn.IsRoute R → s.KeptBy R → R.idxOf 1 < R.idxOf 3 := by
  let s := (bare Instance.dearReturn none).tie Instance.dearReturn none 0 1
  have hwf := Instance.wellFormed_dearReturn
  have hd := decides_decisionOrder Instance.dearReturn .input
  have hroot : Explored Instance.dearReturn (decisionOrder Instance.dearReturn .input)
      (bare Instance.dearReturn none) := explored_bare hwf none
  have ho : (decisionOrder Instance.dearReturn .input)[(bare Instance.dearReturn none).depth]? =
      some 0 := rfl
  have ht : 1 ∈ (bare Instance.dearReturn none).candidates 0 := by decide
  have hstep : Steps (domain Instance.dearReturn (decisionOrder Instance.dearReturn .input) 1
      false).Leads 1 (bare Instance.dearReturn none) s := by
    obtain ⟨next, he⟩ : ∃ next, expand Instance.dearReturn _ (bare Instance.dearReturn none) none
        none = .ok next :=
      expand_total fun o t ho ht => choose_total (hroot.inRange (by decide)
        Instance.bounded_dearReturn (by decide) (hroot.joins ho hd ht).lt
        (hroot.joins ho hd ht).target_lt) ⟨false, rfl⟩
    exact .head ⟨none, none, next, he, mem_expand he ho ht rfl nofun⟩ (.refl _)
  have hsame : ¬s.SameChain 1 3 := by
    rw [← (hroot.joins ho hd ht).coherent_tie.mem_chain_iff (by decide) (by decide)]
    decide
  obtain ⟨hiff, hroutes⟩ := (precedences_complete Instance.typed_dearReturn
    Instance.ofDraft_dearReturn .input false rfl 1 false hstep
    (by decide : 1 < Instance.dearReturn.size)
    (by decide : 3 < Instance.dearReturn.size)).1 hsame
  have hbefore : 1 ∈ s.mustPrecede 3 := by decide
  exact ⟨Instance.typed_dearReturn, Instance.ofDraft_dearReturn, rfl, hstep, by decide, by decide,
    hsame, hiff.mp hbefore, hroutes.mp hbefore⟩

end Fathom.Routing.Chains
