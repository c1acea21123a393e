import Fathom.Proofs.Minimize
import Fathom.Proofs.Moves
import Fathom.Proofs.Tracing
import Mathlib.Order.Lattice.Nat

/-!
# Rounds of any domain

What a round does does not depend on the domain: it replaces nodes at the front of the queue with
nodes that they are branched on, and counts each node that it takes (`Turn`). A round that a budget
cuts off may count fewer. No more is asked here of a domain than that the round answers. It does
where no bound and no branching of the search tree faults (`Domain.Calm`), and the search comes to
its end if that tree is finite (`Domain.Finite`).

Results:
* `round_turn`: what a round that answers has done;
* `Calm.round`: rounds of a calm domain answer;
* `Calm.minimize_total`: a search of a finite tree comes to its end.
-/

namespace Fathom

variable {σ δ α β : Type} {D : Domain σ δ} {root s t : σ}

/-- The number of nodes that a round takes off the queue, if there are as many. -/
def Config.capacity (c : Config) : Nat := c.workers * c.batchSize

/-! ## The search tree -/

namespace Domain

/-- A search may branch on `s` and put `t` on its queue. -/
def Branches (D : Domain σ δ) (s t : σ) : Prop :=
  ∃ best b best' next, (Bound.compute D s best).result = .ok b ∧ b.label = .relaxed ∧
    D.expand s b.inferenceDual best' = .ok next ∧ t ∈ next

/-- A search from `root` may put `t` on its queue. -/
def Meets (D : Domain σ δ) (root t : σ) : Prop := ∃ n, Steps D.Branches n root t

/-- No bound of a state in the search tree of `root` faults, nor does branching on it. -/
structure Calm (D : Domain σ δ) (root : σ) : Prop where
  bounds : ∀ t best, D.Meets root t → ∃ b, (Bound.compute D t best).result = .ok b
  branches : ∀ t best b best', D.Meets root t → (Bound.compute D t best).result = .ok b →
    b.label = .relaxed → ∃ next, D.expand t b.inferenceDual best' = .ok next

/-- The paths of the search tree of `root` do not exceed some length. -/
def Finite (D : Domain σ δ) (root : σ) : Prop :=
  ∃ limit, ∀ n t, Steps D.Branches n root t → n ≤ limit

theorem Meets.refl (root : σ) : D.Meets root root := ⟨0, .refl root⟩

theorem Meets.tail (h : D.Meets root s) (hst : D.Branches s t) : D.Meets root t := by
  obtain ⟨n, hn⟩ := h
  exact ⟨n + 1, hn.tail hst⟩

/-- The length of the longest path below a state. -/
noncomputable def depthBelow (D : Domain σ δ) (s : σ) : Nat :=
  sSup {n | ∃ t, Steps D.Branches n s t}

theorem Finite.bddAbove (h : D.Finite root) (hs : D.Meets root s) :
    BddAbove {n | ∃ t, Steps D.Branches n s t} := by
  obtain ⟨limit, hlimit⟩ := h
  obtain ⟨m, hm⟩ := hs
  refine ⟨limit, fun n hn => ?_⟩
  obtain ⟨t, hn⟩ := hn
  exact Nat.le_trans (Nat.le_add_left n m) (hlimit _ _ (hm.trans hn))

/-- In a finite tree the depth below counts down. -/
theorem Finite.depthBelow_lt (h : D.Finite root) (hs : D.Meets root s) (hst : D.Branches s t) :
    D.depthBelow t < D.depthBelow s := by
  have hne : {n | ∃ u, Steps D.Branches n t u}.Nonempty := ⟨0, t, .refl t⟩
  obtain ⟨u, hu⟩ := Nat.sSup_mem hne (h.bddAbove (hs.tail hst))
  exact le_csSup (h.bddAbove hs) ⟨u, .head hst hu⟩

/-- What is known of the states that a search may meet is known of its tree. -/
theorem Trusted.calm {explored : σ → Prop} {offers : σ → Int → Prop} {rank : σ → Nat}
    (ht : D.Trusted explored offers) (ha : D.Answering explored rank) (hroot : explored root) :
    D.Calm root ∧ D.Finite root := by
  have hall : ∀ n t, Steps D.Branches n root t → explored t ∧ n + rank t ≤ rank root := by
    intro n t hsteps
    refine hsteps.invariant (P := fun n t => explored t ∧ n + rank t ≤ rank root)
      ⟨hroot, Nat.le_of_eq (Nat.zero_add _)⟩ fun n s t hs hst => ?_
    obtain ⟨best, b, best', next, hb, hlabel, he, ht'⟩ := hst
    obtain ⟨hbroot, hsound⟩ := ht.sound s best b hs.1 hb
    obtain ⟨next', he', hrank⟩ := ha.branches s best b hs.1 hb hlabel best'
    rw [he, Except.ok.injEq] at he'
    have hlt := hrank t (he' ▸ ht')
    have hle := hs.2
    exact ⟨(hsound.relaxed hlabel best' next (hbroot ▸ he)).1 t ht', by omega⟩
  refine ⟨⟨fun t best ⟨n, hn⟩ => ha.bounds t best (hall n t hn).1,
    fun t best b best' ⟨n, hn⟩ hb hlabel => ?_⟩, rank root, fun n t hn => ?_⟩
  · obtain ⟨next, he, -⟩ := ha.branches t best b (hall n t hn).1 hb hlabel best'
    exact ⟨next, he⟩
  · exact Nat.le_trans (Nat.le_add_right ..) (hall n t hn).2

end Domain

namespace Search

variable {s s' : Search σ δ} {b : Bound σ δ} {bounds : List (Bound σ δ)}
  {batches : List (List (Bound σ δ))} {nodes : List (Node σ)} {clock : Nat → Nat} {stopped : Bool}

/-- The number of nodes that were bounded or found hopeless. -/
def counted (s : Search σ δ) : Nat := s.nodes + s.fails

theorem andThen_eq_ok_iff {x : Outcome σ δ α} {f : α → Search σ δ → Outcome σ δ β} {a : β} :
    x.andThen f = (s', .ok a) ↔ ∃ s₁ a₁, x = (s₁, .ok a₁) ∧ f a₁ s₁ = (s', .ok a) := by
  obtain ⟨s₁, e | a₁⟩ := x
  · exact ⟨fun h => (by cases h), fun ⟨_, _, h, _⟩ => (by cases h)⟩
  · refine ⟨fun h => ⟨s₁, a₁, rfl, h⟩, fun ⟨_, _, h, hf⟩ => ?_⟩
    cases h
    exact hf

/-! ## Bounding -/

/-- `b` is the bound of one of these states. -/
def Stems (D : Domain σ δ) (states : List σ) (b : Bound σ δ) : Prop :=
  b.root ∈ states ∧ ∃ best, (Bound.compute D b.root best).result = .ok b

/-- How the states are grouped makes no difference to their bounds. -/
theorem boundAll_flatten (D : Domain σ δ) (s : Search σ δ) (batches : List (List σ)) :
    List.flatten <$> s.boundAll D batches =
      Traced.sequence (batches.flatten.map fun t => Bound.compute D t (s.best D)) := by
  rw [List.map_flatten, ← Traced.sequence_flatten, List.map_map]
  rfl

theorem boundAll_eq_ok {states : List (List σ)} (h : (s.boundAll D states).result = .ok batches) :
    List.Forall₂ (fun t b => (Bound.compute D t (s.best D)).result = .ok b)
      states.flatten batches.flatten := by
  have hflat := congrArg Traced.result (boundAll_flatten D s states)
  rw [Traced.result_map, h, Traced.result_sequence, List.mapM_map] at hflat
  exact mapM_eq_ok_iff.mp hflat.symm

/-- The nodes `popped` were taken off the queue, and what was left of them is bounded. -/
structure Opened (D : Domain σ δ) (s : Search σ δ) (popped : List (Node σ))
    (batches : List (List (Bound σ δ))) (s' : Search σ δ) : Prop where
  toList : s.queue.toList = popped ++ s'.queue.toList
  full : s.queue.Full → s'.queue.Full
  length : s.queue.Full → popped.length = min s.config.capacity s.queue.size
  config : s'.config = s.config
  optimal : s'.optimal = s.optimal
  counted : s'.counted + batches.flatten.length = s.counted + popped.length
  stems : ∀ b ∈ batches.flatten, Stems D (popped.map Node.state) b

/-- A node is hopeless or chosen. -/
theorem length_chosen (D : Domain σ δ) (s : Search σ δ) (popped : List (Node σ)) :
    popped.countP (s.hopeless D) + (s.chosen D popped).length = popped.length := by
  rw [chosen, List.length_map, ← List.countP_eq_length_filter,
    List.length_eq_countP_add_countP (s.hopeless D)]
  simp only [Bool.not_eq_true, Bool.decide_eq_false]

/-- **A round takes its nodes off the queue**, also if bounding them faults. -/
theorem exists_popped (D : Domain σ δ) (s : Search σ δ) :
    ∃ popped, s.queue.toList = popped ++ (s.bound D).1.queue.toList ∧
      (s.queue.Full → popped.length = min s.config.capacity s.queue.size) := by
  obtain ⟨popped, htaken, -, hlen⟩ :=
    dispatch_taken D s.config.workers { s with rounds := s.rounds + 1 }
  exact ⟨popped, htaken.toList, hlen⟩

theorem bound_eq_ok (h : s.bound D = (s', .ok batches)) :
    ∃ popped, Opened D s popped batches s' := by
  obtain ⟨popped, htaken, hflatten, hlen⟩ :=
    dispatch_taken D s.config.workers { s with rounds := s.rounds + 1 }
  rw [Search.bound] at h
  generalize dispatch D s.config.workers { s with rounds := s.rounds + 1 } = d at h htaken hflatten
  obtain ⟨states, s₁⟩ := d
  dsimp only at h htaken hflatten
  have hbounds := boundAll_eq_ok (s := s₁) (Prod.mk.inj h).2
  obtain rfl := (Prod.mk.inj h).1
  have hcounted : s₁.counted =
      s.counted + popped.countP (hopeless D { s with rounds := s.rounds + 1 }) := by
    rw [htaken.rest, counted, counted]
    exact (Nat.add_assoc ..).symm
  refine ⟨popped, htaken.toList, htaken.full, hlen, ?_, ?_, ?_, fun b hb => ?_⟩
  · rw [htaken.rest]
  · rw [htaken.rest]
  · change s₁.counted + _ = _
    rw [← hbounds.length_eq, hflatten, hcounted, Nat.add_assoc, length_chosen]
  · obtain ⟨t, ht, hcompute⟩ := forall₂_mem_right hbounds hb
    rw [hflatten] at ht
    obtain ⟨node, hnode, -, rfl⟩ := mem_chosen.mp ht
    have hroot := Bound.root_eq hcompute
    exact ⟨hroot ▸ List.mem_map_of_mem hnode, _, hroot.symm ▸ hcompute⟩

/-! ## Collecting -/

/-- So many bounds have been collected, with the answer `nodes`. -/
structure Gathered (D : Domain σ δ) (bounds : List (Bound σ δ)) (count : Nat) (s : Search σ δ)
    (nodes : List (Node σ)) (s' : Search σ δ) : Prop where
  queue : s'.queue = s.queue
  config : s'.config = s.config
  optimal : s'.optimal = s.optimal
  counted : s'.counted = s.counted + count
  branched : ∀ node ∈ nodes, ∃ b ∈ bounds, b.label = .relaxed ∧
    ∃ best next, D.expand b.root b.inferenceDual best = .ok next ∧ node.state ∈ next

theorem Gathered.refl (s : Search σ δ) : Gathered D bounds 0 s [] s :=
  ⟨rfl, rfl, rfl, rfl, fun _ h => by cases h⟩

theorem Gathered.append {more : List (Bound σ δ)} {count count' : Nat} {s'' : Search σ δ}
    {nodes' : List (Node σ)} (h : Gathered D bounds count s nodes s')
    (h' : Gathered D more count' s' nodes' s'') :
    Gathered D (bounds ++ more) (count + count') s (nodes ++ nodes') s'' where
  queue := h'.queue.trans h.queue
  config := h'.config.trans h.config
  optimal := h'.optimal.trans h.optimal
  counted := by rw [h'.counted, h.counted, Nat.add_assoc]
  branched node hnode := by
    rcases List.mem_append.mp hnode with hnode | hnode
    · obtain ⟨b, hb, hbranch⟩ := h.branched node hnode
      exact ⟨b, List.mem_append_left _ hb, hbranch⟩
    · obtain ⟨b, hb, hbranch⟩ := h'.branched node hnode
      exact ⟨b, List.mem_append_right _ hb, hbranch⟩

/-- **A bound is counted once**, as a node or as a fail. -/
theorem counted_account (D : Domain σ δ) (s : Search σ δ) (b : Bound σ δ) :
    (s.account D b).counted = s.counted + 1 := by
  obtain ⟨-, h⟩ | ⟨-, h⟩ | ⟨-, -, h⟩ := account_cases D s b
  · rw [h, counted, counted]
    rfl
  · rw [h, counted, counted]
    exact Nat.add_right_comm ..
  · rw [h, counted, counted]
    exact Nat.add_right_comm ..

/-- A relaxed bound is branched on, and no other. -/
theorem children_eq_ok (h : (s.children D b).result = .ok nodes) : ∀ node ∈ nodes,
    b.label = .relaxed ∧
      ∃ best next, D.expand b.root b.inferenceDual best = .ok next ∧ node.state ∈ next := by
  intro node hnode
  by_cases hl : b.label = .relaxed
  · have hr : b.isRelaxed = true := by simp [Bound.isRelaxed, hl]
    rw [children, if_pos hr, Traced.result_bind, Space.result_branch] at h
    obtain ⟨next, he, h⟩ := bind_eq_ok_iff.mp h
    cases h
    exact ⟨hl, _, next, he, (mem_branches hnode).1⟩
  · rw [children_of_settled hl, Except.ok.injEq] at h
    rw [← h] at hnode
    cases hnode

/-- One bound is collected. -/
theorem account_gathered
    (h : (s.account D b).hear ((s.account D b).children D b) = (s', .ok nodes)) :
    Gathered D [b] 1 s nodes s' := by
  obtain ⟨rfl, hchildren⟩ := Prod.mk.inj h
  have himproves := account_improves D s b
  exact ⟨himproves.queue, himproves.config, himproves.optimal, counted_account D s b,
    fun node hnode => ⟨b, List.mem_cons_self, children_eq_ok hchildren node hnode⟩⟩

theorem collect_eq_ok (h : s.collect D bounds = (s', .ok nodes)) :
    Gathered D bounds bounds.length s nodes s' := by
  induction bounds generalizing s nodes with
  | nil =>
    cases h
    exact .refl _
  | cons b bounds ih =>
    rw [collect, andThen_eq_ok_iff] at h
    obtain ⟨s₁, first, hfirst, h⟩ := h
    obtain ⟨s₂, rest, hrest, h⟩ := andThen_eq_ok_iff.mp h
    cases h
    rw [List.length_cons, Nat.add_comm]
    exact (account_gathered hfirst).append (ih hrest)

theorem collectAll_eq_ok {worker : Nat}
    (h : s.collectAll D clock worker batches = (s', .ok (nodes, stopped))) :
    ∃ count ≤ batches.flatten.length, (stopped = false → count = batches.flatten.length) ∧
      Gathered D batches.flatten count s nodes s' := by
  induction batches generalizing s nodes worker with
  | nil =>
    cases h
    exact ⟨0, Nat.le_refl 0, fun _ => rfl, .refl _⟩
  | cons batch batches ih =>
    rw [collectAll] at h
    split at h
    · cases h
      exact ⟨0, Nat.zero_le _, fun h => (by cases h), .refl _⟩
    · obtain ⟨s₁, first, hfirst, h⟩ := andThen_eq_ok_iff.mp h
      obtain ⟨s₂, ⟨rest, stopped'⟩, hrest, h⟩ := andThen_eq_ok_iff.mp h
      cases h
      obtain ⟨count, hle, hall, hg⟩ := ih hrest
      rw [List.flatten_cons, List.length_append]
      exact ⟨batch.length + count, Nat.add_le_add_left hle _, fun h => by rw [hall h],
        (collect_eq_ok hfirst).append hg⟩

/-! ## Rounds -/

/-- The nodes that a round puts on the queue. -/
def entered (D : Domain σ δ) (clock : Nat → Nat) (s : Search σ δ) : List (Node σ) :=
  match (s.bound D).andThen (collectAll D clock 0) with
  | (s', .ok (nodes, _)) => Queue.sorted nodes (s'.best D)
  | (_, .error _) => []

/-- **What a round does**: it takes the nodes `popped` off the queue, and counts them unless a
budget is spent before. What it puts on the queue was branched from them. -/
structure Turn (D : Domain σ δ) (clock : Nat → Nat) (s : Search σ δ) (popped rest : List (Node σ))
    (s' : Search σ δ) (stopped : Bool) : Prop where
  before : s.queue.toList = popped ++ rest
  after : s'.queue.toList = s.entered D clock ++ rest
  full : s.queue.Full → s'.queue.Full
  length : s.queue.Full → popped.length = min s.config.capacity s.queue.size
  config : s'.config = s.config
  optimal : s'.optimal = s.optimal
  counted_le : s'.counted ≤ s.counted + popped.length
  counted : stopped = false → s'.counted = s.counted + popped.length
  going : stopped = false → s'.mustStop (clock s.config.workers) = false
  branched : ∀ node ∈ s.entered D clock, ∃ node' ∈ popped, D.Branches node'.state node.state

/-- **A round that answers.** -/
theorem round_turn (h : s.round D clock = (s', .ok stopped)) :
    ∃ popped rest, Turn D clock s popped rest s' stopped := by
  obtain ⟨s₁, batches, hbound, h⟩ := andThen_eq_ok_iff.mp h
  obtain ⟨s₂, ⟨nodes, spent⟩, hcollect, h⟩ := andThen_eq_ok_iff.mp h
  obtain ⟨popped, ho⟩ := bound_eq_ok hbound
  obtain ⟨count, hle, hall, hg⟩ := collectAll_eq_ok hcollect
  have hentered : s.entered D clock = Queue.sorted nodes (s₂.best D) := by
    rw [entered, hbound, Outcome.andThen, hcollect]
  obtain ⟨rfl, hstopped⟩ := Prod.mk.inj h
  rw [Except.ok.injEq] at hstopped
  have hcounted := ho.counted
  have hgathered : s₂.counted = s₁.counted + count := hg.counted
  have hconfig : s₂.config = s.config := hg.config.trans ho.config
  refine ⟨popped, s₁.queue.toList, ho.toList, ?_, fun hf => ?_, ho.length, hconfig,
    hg.optimal.trans ho.optimal, ?_, fun hs => ?_, fun hs => ?_, fun node hnode => ?_⟩
  · rw [Queue.toList_extend, hentered, hg.queue]
  · refine Queue.Full.extend ?_ _ _
    rw [hg.queue]
    exact ho.full hf
  · change s₂.counted ≤ _
    omega
  · rw [← hstopped, Bool.or_eq_false_iff] at hs
    have := hall hs.1
    change s₂.counted = _
    omega
  · rw [← hstopped, Bool.or_eq_false_iff] at hs
    rw [← hconfig]
    exact hs.2
  · rw [hentered] at hnode
    obtain ⟨b, hb, hlabel, best', next, he, hnext⟩ :=
      hg.branched node (Queue.mem_sorted.mp hnode).1
    obtain ⟨hroot, best, hcompute⟩ := ho.stems b hb
    obtain ⟨node', hnode', hstate⟩ := List.mem_map.mp hroot
    exact ⟨node', hnode', hstate ▸ ⟨best, b, best', next, hcompute, hlabel, he, hnext⟩⟩

/-- A round takes a node if there is one. -/
theorem Turn.popped_ne_nil {popped rest : List (Node σ)}
    (h : Turn D clock s popped rest s' stopped) (hs : WellFormed s)
    (hempty : s.queue.isEmpty = false) : popped ≠ [] := by
  intro hnil
  have hlen := h.length hs.full
  have hcapacity : 0 < s.config.capacity := Nat.mul_pos hs.workers hs.batchSize
  have hsize : 0 < s.queue.size := List.length_pos_of_ne_nil (toList_ne_nil hs.full hempty)
  rw [hnil, List.length_nil] at hlen
  omega

/-- A round makes no claim. -/
theorem Turn.wellFormed {popped rest : List (Node σ)} (h : Turn D clock s popped rest s' stopped)
    (hs : WellFormed s) (hempty : s.queue.isEmpty = false) : WellFormed s' where
  full := h.full hs.full
  workers := h.config ▸ hs.workers
  batchSize := h.config ▸ hs.batchSize
  optimal ho := absurd (hs.optimal (h.optimal ▸ ho)).1 (toList_ne_nil hs.full hempty)

/-! ## Calm domains -/

/-- The nodes on the queue belong to the search tree of `root`. -/
def Rooted (D : Domain σ δ) (root : σ) (s : Search σ δ) : Prop :=
  ∀ node ∈ s.queue.toList, D.Meets root node.state

theorem rooted_start (config : Config) : Rooted D root (start root config) := by
  intro node hnode
  rw [List.mem_singleton.mp hnode]
  exact .refl root

theorem Turn.rooted {popped rest : List (Node σ)} (h : Turn D clock s popped rest s' stopped)
    (hs : Rooted D root s) : Rooted D root s' := by
  intro node hnode
  rw [h.after] at hnode
  rcases List.mem_append.mp hnode with hnode | hnode
  · obtain ⟨node', hnode', hbranches⟩ := h.branched node hnode
    exact (hs node' (h.before ▸ List.mem_append_left _ hnode')).tail hbranches
  · exact hs node (h.before ▸ List.mem_append_right _ hnode)

end Search

namespace Domain.Calm

open Search

variable {s : Search σ δ} {b : Bound σ δ} {bounds : List (Bound σ δ)}
  {batches : List (List (Bound σ δ))}

/-- The bound of a state in the search tree of `root`. -/
def Known (D : Domain σ δ) (root : σ) (b : Bound σ δ) : Prop :=
  D.Meets root b.root ∧ ∃ best, (Bound.compute D b.root best).result = .ok b

/-- Bounding the nodes of a round answers. -/
theorem bound (h : D.Calm root) (hs : s.Rooted D root) :
    ∃ batches s', s.bound D = (s', .ok batches) ∧ ∀ b ∈ batches.flatten, Known D root b := by
  obtain ⟨popped, htaken, hflatten, -⟩ :=
    dispatch_taken D s.config.workers { s with rounds := s.rounds + 1 }
  obtain ⟨batches, hbatches⟩ : ∃ batches,
      (boundAll D (dispatch D s.config.workers { s with rounds := s.rounds + 1 }).2
        (dispatch D s.config.workers { s with rounds := s.rounds + 1 }).1).result =
          .ok batches := by
    rw [boundAll, Traced.result_sequence, List.mapM_map]
    refine mapM_total fun batch hbatch => ?_
    rw [Function.comp_apply, Traced.result_sequence, List.mapM_map]
    refine mapM_total fun t ht => h.bounds t _ ?_
    have hmem := List.mem_flatten.mpr ⟨batch, hbatch, ht⟩
    rw [hflatten] at hmem
    obtain ⟨node, hnode, -, rfl⟩ := mem_chosen.mp hmem
    exact hs node (htaken.toList ▸ List.mem_append_left _ hnode)
  have hbound : s.bound D = ((s.bound D).1, .ok batches) := Prod.ext rfl hbatches
  obtain ⟨popped', ho⟩ := bound_eq_ok hbound
  refine ⟨batches, _, hbound, fun b hb => ?_⟩
  obtain ⟨hroot, hcompute⟩ := ho.stems b hb
  obtain ⟨node, hnode, hstate⟩ := List.mem_map.mp hroot
  exact ⟨hstate ▸ hs node (ho.toList ▸ List.mem_append_left _ hnode), hcompute⟩

theorem children (h : D.Calm root) (hb : Known D root b) (s : Search σ δ) :
    ∃ nodes, (s.children D b).result = .ok nodes := by
  obtain ⟨hroot, best, hcompute⟩ := hb
  by_cases hl : b.label = .relaxed
  · obtain ⟨next, he⟩ := h.branches b.root best b (s.best D) hroot hcompute hl
    exact ⟨_, children_of_relaxed hl he⟩
  · exact ⟨[], children_of_settled hl⟩

/-- Collecting the bounds of one worker answers. -/
theorem collect (h : D.Calm root) (hb : ∀ b ∈ bounds, Known D root b) (s : Search σ δ) :
    ∃ nodes s', s.collect D bounds = (s', .ok nodes) := by
  induction bounds generalizing s with
  | nil => exact ⟨[], s, rfl⟩
  | cons b bounds ih =>
    obtain ⟨first, hfirst⟩ := h.children (hb b List.mem_cons_self) (s.account D b)
    have hhear : (s.account D b).hear ((s.account D b).children D b) = (_, .ok first) :=
      Prod.ext rfl hfirst
    obtain ⟨rest, s', hrest⟩ := ih (fun b' hb' => hb b' (List.mem_cons_of_mem _ hb')) _
    exact ⟨first ++ rest, s', andThen_eq_ok_iff.mpr
      ⟨_, first, hhear, andThen_eq_ok_iff.mpr ⟨s', rest, hrest, rfl⟩⟩⟩

/-- Collecting the bounds of all workers answers. -/
theorem collectAll (h : D.Calm root) (hb : ∀ b ∈ batches.flatten, Known D root b)
    (clock : Nat → Nat) (worker : Nat) (s : Search σ δ) :
    ∃ answer s', s.collectAll D clock worker batches = (s', .ok answer) := by
  induction batches generalizing s worker with
  | nil => exact ⟨_, s, rfl⟩
  | cons batch batches ih =>
    rw [Search.collectAll]
    split
    · exact ⟨_, s, rfl⟩
    · rw [List.flatten_cons] at hb
      obtain ⟨first, s₁, hfirst⟩ := h.collect (fun b hb' => hb b (List.mem_append_left _ hb')) s
      obtain ⟨rest, s₂, hrest⟩ :=
        ih (fun b hb' => hb b (List.mem_append_right _ hb')) (worker + 1) s₁
      exact ⟨_, s₂, andThen_eq_ok_iff.mpr
        ⟨s₁, first, hfirst, andThen_eq_ok_iff.mpr ⟨s₂, rest, hrest, rfl⟩⟩⟩

/-- **The rounds of a search in a calm domain answer.** -/
theorem round (h : D.Calm root) (hs : s.Rooted D root) (clock : Nat → Nat) :
    ∃ stopped s', s.round D clock = (s', .ok stopped) := by
  obtain ⟨batches, s₁, hbound, hknown⟩ := h.bound hs
  obtain ⟨answer, s₂, hcollect⟩ := h.collectAll hknown clock 0 s₁
  exact ⟨_, _, andThen_eq_ok_iff.mpr
    ⟨s₁, batches, hbound, andThen_eq_ok_iff.mpr ⟨s₂, answer, hcollect, rfl⟩⟩⟩

/-- **A search of a finite tree comes to its end.** -/
theorem minimize_total (h : D.Calm root) (hfinite : D.Finite root) (hwf : WellFormed s)
    (hs : s.Rooted D root) (clock : Nat → Nat → Nat) : ∃ rounds, ∀ fuel, rounds ≤ fuel →
      ∃ s' ending, s.minimize D clock fuel = (s', .ok ending) := by
  refine minimize_total_of_rounds wellFounded_ranks (ranks D.depthBelow)
    (fun s => WellFormed s ∧ s.Rooted D root) (fun s hs hempty => ?_) ⟨hwf, hs⟩
  obtain ⟨hwf, hrooted⟩ := hs
  obtain ⟨stopped, s', hround⟩ := h.round hrooted (clock s.rounds)
  obtain ⟨popped, rest, hturn⟩ := round_turn hround
  have hne := hturn.popped_ne_nil hwf hempty
  refine ⟨stopped, s', hround, fun _ => ⟨⟨hturn.wellFormed hwf hempty, hturn.rooted hrooted⟩, ?_⟩⟩
  refine ranks_lt hne hturn.before hturn.after fun node hnode => ?_
  obtain ⟨node', hnode', hbranches⟩ := hturn.branched node hnode
  exact ⟨node', hnode', hfinite.depthBelow_lt
    (hrooted node' (hturn.before ▸ List.mem_append_left _ hnode')) hbranches⟩

end Domain.Calm

end Fathom
