import Fathom.Proofs.Routing.Precedence

/-!
# The tables of a state agree

A state holds the same facts several times: successors and predecessors, the nodes of each chain and
what comes before and after it, the nodes that are no successor, the number of choices and their
cost. `WellFormed` says how these agree, in terms of the successors alone.

Whether an arc would close a cycle may be told from the *identity* of the sets that the nodes hold,
without looking at their members. `Sharing` follows the sets along a run: at the root each node has
one of its own, and a choice makes a new one for the nodes of the joined chain. Nodes hold the same
set just if they hold equal ones, and that is just if they are on the same chain.

Results:
* `Coherent.acyclic`: no chain comes back to one of its nodes;
* `Shared.step`: a choice keeps identities in step with the chains;
* `tables_agree`: both, in every state that expansions reach.
-/

namespace Fathom.Routing.Chains

open Relation (ReflTransGen TransGen)

variable {P : Instance} {order : List Nat} {s u : Chains} {a b o t x y : Nat} {c : List Nat}
  {relaxation : Option Assignment} {width : Nat} {narrate : Bool}

/-- What the tables of a state have in common. -/
structure WellFormed (P : Instance) (order : List Nat) (s : Chains) : Prop where
  inverse : ∀ a b, (s.link b).prev = some a ↔ s.successor a = some b
  acyclic : ∀ a, ¬TransGen (fun a b => s.successor a = some b) a a
  /-- A node holds the nodes of its chain. -/
  chain : ∀ x y, y < P.size → (x ∈ (s.link y).chain ↔ s.SameChain x y)
  /-- Nodes that hold equal sets are on the same chain. -/
  chain_eq_iff : ∀ x y, x < P.size → y < P.size →
    ((s.link x).chain = (s.link y).chain ↔ s.SameChain x y)
  before_eq : ∀ x y, y < P.size → s.SameChain x y → (s.link x).before = (s.link y).before
  after_eq : ∀ x y, y < P.size → s.SameChain x y → (s.link x).after = (s.link y).after
  /-- The targets are the nodes without predecessor, in the order of the instance. -/
  targets : s.targets = P.nodes.filter fun a => a != P.start && (s.link a).prev.isNone
  depth_le : s.depth ≤ order.length
  /-- The nodes with a successor are the first of the decision order. -/
  chosen : ∀ a, s.successor a ≠ none ↔ a ∈ order.take s.depth
  cost : s.cost = (P.nodes.map fun a => (s.successor a).elim 0 (P.cost a)).sum

/-! ## Chains -/

/-- Along a thread, the successors come at later positions. -/
theorem Thread.idxOf_lt_of_transGen (h : Thread P s c) (ha : a ∈ c)
    (hab : TransGen (fun a b => s.successor a = some b) a b) : b ∈ c ∧ c.idxOf a < c.idxOf b := by
  induction hab with
  | single hab =>
    obtain ⟨hb, hidx⟩ := (mem_arcs_iff h.nodup).mp (h.mem_arcs ha hab)
    exact ⟨hb, by omega⟩
  | tail _ hbd ih =>
    obtain ⟨hd, hidx⟩ := (mem_arcs_iff h.nodup).mp (h.mem_arcs ih.1 hbd)
    have hlt := ih.2
    exact ⟨hd, by omega⟩

namespace Coherent

variable (h : s.Coherent P)

include h

/-- **No chain comes back to one of its nodes.** -/
theorem acyclic (a : Nat) : ¬TransGen (fun a b => s.successor a = some b) a a := by
  intro hcycle
  have ha : a < P.size := by
    obtain ⟨b, hab, -⟩ := TransGen.head'_iff.mp hcycle
    exact h.lt_of_successor hab
  obtain ⟨c, hac, hc⟩ := h.thread ha
  exact Nat.lt_irrefl _ (hc.idxOf_lt_of_transGen hac hcycle).2

/-- A number that is no node is on no chain but its own. -/
theorem lt_of_sameChain (hxy : s.SameChain x y) (hy : y < P.size) : x < P.size := by
  obtain hxy | hyx := hxy
  · obtain rfl | ⟨_, hx, -⟩ := ReflTransGen.cases_head hxy
    · exact hy
    · exact h.lt_of_successor hx
  · obtain rfl | ⟨_, -, hx⟩ := ReflTransGen.cases_tail hyx
    · exact hy
    · exact h.successor_lt hx

/-- The chain that a node holds has no other members than the nodes that it is joined to. -/
theorem mem_chain_iff_sameChain (hy : y < P.size) : x ∈ (s.link y).chain ↔ s.SameChain x y := by
  constructor
  · intro hxy
    exact (h.mem_chain_iff (h.lt_of_mem_chain hxy) hy).mp hxy
  · intro hxy
    exact (h.mem_chain_iff (h.lt_of_sameChain hxy hy) hy).mpr hxy

/-- **Nodes hold equal sets just if they are on the same chain.** -/
theorem chain_eq_iff (hx : x < P.size) (hy : y < P.size) :
    (s.link x).chain = (s.link y).chain ↔ s.SameChain x y := by
  rw [← h.mem_chain_iff_sameChain hy]
  refine ⟨fun he => ?_, h.chain_eq⟩
  rw [← he]
  exact h.mem_chain_self hx

end Coherent

/-! ## The targets -/

/-- The targets are the nodes without predecessor, in the order of the instance. -/
def Listed (P : Instance) (s : Chains) : Prop :=
  s.targets = P.nodes.filter fun a => a != P.start && (s.link a).prev.isNone

theorem listed_bare : Listed P (bare P relaxation) := by
  unfold Listed
  simp only [prev_bare, Option.isNone_none, Bool.and_true]
  rfl

theorem Listed.tie (hs : Listed P s) (h : Joins P s o t) : Listed P (s.tie P relaxation o t) := by
  unfold Listed at *
  rw [tie_targets, hs, List.filter_filter]
  refine List.filter_congr fun a _ => ?_
  rw [h.prev_tie]
  by_cases hat : a = t
  · simp [hat]
  · simp [hat]

/-! ## States that expansions reach -/

/-- What an expansion does to a state, whatever its hints. -/
theorem Explored.exists_joins (h : Explored P order s) (hd : Decides P order)
    (hsu : (domain P order width narrate).Leads s u) : ∃ relaxation o t,
      order[s.depth]? = some o ∧ Joins P s o t ∧ u = s.tie P relaxation o t := by
  obtain ⟨dual, best, next, he, hu⟩ := hsu
  obtain ⟨o, t, ho, ht, rfl⟩ := mem_of_expand he hu
  exact ⟨_, o, t, ho, h.joins ho hd ht, rfl⟩

/-- Without hints, a choice among the candidates is made where the costs of the arcs are small. -/
theorem Explored.leads_tie (h : Explored P order s) (hd : Decides P order) {most : Int}
    (hmost : 0 ≤ most) (hP : P.Bounded most) (hroom : (P.size + 1) * most ≤ Cost.greatest)
    (ho : order[s.depth]? = some o) (ht : t ∈ s.candidates o) :
    (domain P order width narrate).Leads s (s.tie P s.relaxation o t) := by
  obtain ⟨next, he⟩ := h.answers hd hmost hP hroom
  exact ⟨none, none, next, he, mem_expand he ho ht rfl nofun⟩

/-- **Expansions keep the targets in order.** -/
theorem Explored.listed_of_steps (hs : Explored P order s) (hl : Listed P s)
    (hd : Decides P order) {n : Nat} (h : Steps (domain P order width narrate).Leads n s u) :
    Listed P u := by
  refine (h.invariant (P := fun _ u => Explored P order u ∧ Listed P u) ⟨hs, hl⟩ ?_).2
  rintro n v w ⟨hv, hlv⟩ hvw
  refine ⟨hv.of_steps hd (.head hvw (.refl w)), ?_⟩
  obtain ⟨relaxation, o, t, -, hjoin, rfl⟩ := hv.exists_joins hd hvw
  exact hlv.tie hjoin

/-- **The tables of an explored state agree.** -/
theorem Explored.wellFormed (h : Explored P order s) (hP : P.WellFormed) (hd : Decides P order)
    (hl : Listed P s) : s.WellFormed P order := by
  have hc := h.coherent
  have hdepth := h.depth
  have hlen := hd.length hP
  exact {
    inverse := fun _ _ => hc.prev_iff
    acyclic := hc.acyclic
    chain := fun x y hy => hc.mem_chain_iff_sameChain hy
    chain_eq_iff := fun x y hx hy => hc.chain_eq_iff hx hy
    before_eq := fun x y hy hxy => hc.before_eq ((hc.mem_chain_iff_sameChain hy).mpr hxy)
    after_eq := fun x y hy hxy => hc.after_eq ((hc.mem_chain_iff_sameChain hy).mpr hxy)
    targets := hl
    depth_le := by omega
    chosen := fun a => by rw [Ne, h.chosen, not_not]
    cost := hc.cost }

/-! ## Shared sets -/

/-- An expansion, and the numbers of the sets that the nodes hold. The choice of a successor makes a
set that is none of those before, and the nodes of the joined chain hold it from then on. -/
def Sharing (P : Instance) (order : List Nat) (D : Domain Chains Assignment)
    (p q : Chains × (Nat → Nat)) : Prop :=
  D.Leads p.1 q.1 ∧ ∃ o t, order[p.1.depth]? = some o ∧ q.1.successor o = some t ∧
    q.2 = fun x => if OnJoin p.1 o t x then P.size + p.1.depth else p.2 x

/-- Nodes hold the same set just if they are on the same chain. -/
structure Shared (P : Instance) (order : List Nat) (p : Chains × (Nat → Nat)) : Prop where
  explored : Explored P order p.1
  /-- The next set is none of those held. -/
  fresh : ∀ x, x < P.size → p.2 x < P.size + p.1.depth
  same : ∀ x y, x < P.size → y < P.size → (p.2 x = p.2 y ↔ x ∈ (p.1.link y).chain)

/-- At the root, each node holds a set of its own. -/
theorem shared_bare (hP : P.WellFormed) (relaxation : Option Assignment) :
    Shared P order (bare P relaxation, id) where
  explored := explored_bare hP relaxation
  fresh _ hx := hx
  same x y _ hy := by
    rw [mem_chain_bare]
    exact (and_iff_right hy).symm

/-- **A choice keeps identities in step with the chains.** -/
theorem Shared.step {p q : Chains × (Nat → Nat)} (h : Shared P order p) (hd : Decides P order)
    (hpq : Sharing P order (domain P order width narrate) p q) : Shared P order q := by
  obtain ⟨s, held⟩ := p
  obtain ⟨u, held'⟩ := q
  obtain ⟨hsu, o, t, ho, hot, rfl⟩ := hpq
  obtain ⟨relaxation, o', t', ho', hjoin, rfl⟩ := h.explored.exists_joins hd hsu
  -- the choice that the step names is the one that the expansion has made
  obtain rfl : o' = o := Option.some.inj (ho'.symm.trans ho)
  obtain rfl : t' = t := by
    rw [hjoin.successor_tie, if_pos rfl] at hot
    exact Option.some.inj hot
  refine ⟨h.explored.of_steps hd (.head hsu (.refl _)), fun x hx => ?_, fun x y hx hy => ?_⟩
  · have hfresh := h.fresh x hx
    simp only [tie_depth] at hfresh ⊢
    split
    · omega
    · omega
  · have hnew : ∀ z, z < P.size → held z ≠ P.size + s.depth := fun z hz =>
      Nat.ne_of_lt (h.fresh z hz)
    have hsame := h.same x y hx hy
    simp only [hjoin.mem_chain_tie] at hsame ⊢
    by_cases hjx : OnJoin s o' t' x
    · by_cases hjy : OnJoin s o' t' y
      · simp [hjx, hjy]
      · have hxy : x ∉ (s.link y).chain := fun hxy => hjy ((hjoin.onJoin_congr hxy).mp hjx)
        simp [hjx, hjy, hxy, (hnew y hy).symm]
    · by_cases hjy : OnJoin s o' t' y
      · have hxy : x ∉ (s.link y).chain := fun hxy => hjx ((hjoin.onJoin_congr hxy).mpr hjy)
        simp [hjx, hjy, hxy, hnew x hx]
      · simp [hjx, hjy, hsame]

/-- Every expansion makes a set. -/
theorem exists_sharing (hs : Explored P order s) (hd : Decides P order) {held : Nat → Nat} {n : Nat}
    (h : Steps (domain P order width narrate).Leads n s u) :
    ∃ held', Steps (Sharing P order (domain P order width narrate)) n (s, held) (u, held') := by
  induction h generalizing held with
  | refl s => exact ⟨held, .refl _⟩
  | head hst _ ih =>
    obtain ⟨relaxation, o, t, ho, hjoin, rfl⟩ := hs.exists_joins hd hst
    obtain ⟨held', hrest⟩ := ih (hs.of_steps hd (.head hst (.refl _)))
    exact ⟨held', .head ⟨hst, o, t, ho, hjoin.successor_tie.trans (if_pos rfl), rfl⟩ hrest⟩

/-! ## The search tree -/

/-- **The tables of a state agree, and so do the identities of its sets.** In every state that
expansions reach, whatever their hints, the tables say the same as the successors chosen; and nodes
hold the very same set just if they are on the same chain. -/
theorem tables_agree {d : Draft} (htyped : d.Typed) (hP : Instance.ofDraft d = .ok P)
    (rule : DecisionRule) (infer : Bool) {r : Chains} (hr : root P infer = .ok r) (width : Nat)
    (narrate : Bool) {n : Nat}
    (hs : Steps (domain P (decisionOrder P rule) width narrate).Leads n r s) :
    let order := decisionOrder P rule
    let D := domain P order width narrate
    s.WellFormed P order ∧
    (∃ held, Steps (Sharing P order D) n (r, id) (s, held)) ∧
    ∀ held, Steps (Sharing P order D) n (r, id) (s, held) →
      ∀ x y, x < P.size → y < P.size → (held x = held y ↔ s.SameChain x y) := by
  have hwf := Instance.wellFormed_of_ofDraft htyped hP
  have hd := decides_decisionOrder P rule
  obtain ⟨relaxation, -, rfl⟩ := root_eq_ok_iff.mp hr
  have hroot : Explored P (decisionOrder P rule) (bare P relaxation) :=
    explored_bare hwf relaxation
  have h := hroot.of_steps hd hs
  refine ⟨h.wellFormed hwf hd (hroot.listed_of_steps listed_bare hd hs), exists_sharing hroot hd hs,
    fun held hheld x y hx hy => ?_⟩
  have hshared : Shared P (decisionOrder P rule) (s, held) :=
    hheld.invariant (P := fun _ p => Shared P (decisionOrder P rule) p) (shared_bare hwf relaxation)
      fun _ _ _ hp hpq => hp.step hd hpq
  rw [hshared.same x y hx hy]
  exact h.coherent.mem_chain_iff hx hy

/-- Once the start is followed by the first pickup, these two hold one set and the delivery holds
another. -/
theorem dearReturn_tables : Instance.dearReturnDraft.Typed ∧
    Instance.ofDraft Instance.dearReturnDraft = .ok Instance.dearReturn ∧
    root Instance.dearReturn false = .ok (bare Instance.dearReturn none) ∧
    let order := decisionOrder Instance.dearReturn .input
    let D := domain Instance.dearReturn order 1 false
    let s := (bare Instance.dearReturn none).tie Instance.dearReturn none 0 1
    Steps D.Leads 1 (bare Instance.dearReturn none) s ∧ s.WellFormed Instance.dearReturn order ∧
    ∃ held, Steps (Sharing Instance.dearReturn order D) 1 (bare Instance.dearReturn none, id)
      (s, held) ∧ held 0 = held 1 ∧ held 0 ≠ held 2 := by
  have hwf := Instance.wellFormed_dearReturn
  have hd := decides_decisionOrder Instance.dearReturn .input
  have hroot : Explored Instance.dearReturn (decisionOrder Instance.dearReturn .input)
      (bare Instance.dearReturn none) := explored_bare hwf none
  have hstep : (domain Instance.dearReturn (decisionOrder Instance.dearReturn .input) 1
      false).Leads (bare Instance.dearReturn none)
        ((bare Instance.dearReturn none).tie Instance.dearReturn none 0 1) :=
    hroot.leads_tie hd (by decide) Instance.bounded_dearReturn (by decide) rfl (by decide)
  obtain ⟨hagree, ⟨held, hheld⟩, hsame⟩ :=
    tables_agree Instance.typed_dearReturn Instance.ofDraft_dearReturn .input false rfl 1 false
      (.head hstep (.refl _))
  have hone := hsame held hheld 0 1 (by decide) (by decide)
  have htwo := hsame held hheld 0 2 (by decide) (by decide)
  rw [← hagree.chain 0 1 (by decide)] at hone
  rw [← hagree.chain 0 2 (by decide)] at htwo
  refine ⟨Instance.typed_dearReturn, Instance.ofDraft_dearReturn, rfl, .head hstep (.refl _),
    hagree, held, hheld, ?_, ?_⟩
  · exact hone.mpr (by decide)
  · exact fun he => absurd (htwo.mp he) (by decide)

end Fathom.Routing.Chains
