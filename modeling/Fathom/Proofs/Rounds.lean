import Fathom.Search
import Fathom.Proofs.Lockstep
import Fathom.Proofs.Queue
import Mathlib.Data.Multiset.DershowitzManna

/-!
# What a round does

A round takes nodes off the queue (`Taken`), bounds them against one incumbent, collects the bounds
and extends the queue. What is known of a search on the way is `Covered`: whatever is offered below
the root and improves on the incumbent is offered below one of the *pending* states. These are the
states on the queue, those being bounded, those branched on so far, and those that were lost when a
budget was spent (`leftover`, `lost`).

There are four places where states are dropped, and at each of them they have nothing to offer:
* `Covered.taken`: nodes that come off the queue and cannot improve are not bounded;
* `Covered.account`: bounds are computed against an incumbent that may be out of date by the time
  they are collected, and their successors are filtered;
* `Covered.collectAll`: the bounds of the workers after the one where a budget is spent;
* `Covered.enqueue`: the queue turns down nodes that are not promising.

Together they give `Covered.round`: a round answers, keeps `Covered`, and replaces nodes with nodes
of lower rank.
-/

namespace Fathom

/-- No budget is given. -/
def Config.Unlimited (c : Config) : Prop := c.maxMillis = 0 ∧ c.maxNodes = 0

namespace Search

variable {σ δ : Type} {D : Domain σ δ} {s s' s'' : Search σ δ}

/-! ## Taking nodes off the queue -/

/-- The node cannot improve on the incumbent. -/
def hopeless (D : Domain σ δ) (s : Search σ δ) (node : Node σ) : Bool :=
  !Cost.beats (s.best D) (D.cost node.state)

/-- The states among these nodes that may improve on the incumbent. -/
def chosen (D : Domain σ δ) (s : Search σ δ) (popped : List (Node σ)) : List σ :=
  (popped.filter fun node => !s.hopeless D node).map Node.state

/-- The search `s'` is what is left of `s` once the nodes `popped` have been taken off the queue. -/
structure Taken (D : Domain σ δ) (s : Search σ δ) (popped : List (Node σ)) (s' : Search σ δ) :
    Prop where
  toList : s.queue.toList = popped ++ s'.queue.toList
  full : s.queue.Full → s'.queue.Full
  rest : s' = { s with queue := s'.queue, fails := s.fails + popped.countP (s.hopeless D) }

theorem Taken.refl (s : Search σ δ) : Taken D s [] s := ⟨rfl, fun h => h, rfl⟩

theorem Taken.best {popped : List (Node σ)} (h : Taken D s popped s') : s'.best D = s.best D := by
  rw [h.rest]
  rfl

theorem Taken.trans {first second : List (Node σ)} (h : Taken D s first s')
    (h' : Taken D s' second s'') : Taken D s (first ++ second) s'' := by
  have hhopeless : s'.hopeless D = s.hopeless D := by
    funext node
    rw [hopeless, h.best]
    rfl
  refine ⟨?_, fun hf => h'.full (h.full hf), ?_⟩
  · rw [h.toList, h'.toList, List.append_assoc]
  · rw [h'.rest, hhopeless, h.rest, List.countP_append, Nat.add_assoc]

theorem hopeless_eq_false_iff {node : Node σ} :
    s.hopeless D node = false ↔ Cost.beats (s.best D) (D.cost node.state) = true := by
  simp [hopeless]

theorem mem_chosen {popped : List (Node σ)} {t : σ} : t ∈ s.chosen D popped ↔
    ∃ node ∈ popped, s.hopeless D node = false ∧ node.state = t := by
  simp [chosen, and_assoc]

theorem chosen_append (first second : List (Node σ)) :
    s.chosen D (first ++ second) = s.chosen D first ++ s.chosen D second := by
  simp [chosen]

theorem chosen_congr (h : s'.best D = s.best D) (popped : List (Node σ)) :
    s'.chosen D popped = s.chosen D popped := by
  have hhopeless : s'.hopeless D = s.hopeless D := by
    funext node
    rw [hopeless, h]
    rfl
  rw [chosen, hhopeless]
  rfl

/-- What is left once the first node has come off the queue. -/
def dropFirst (D : Domain σ δ) (s : Search σ δ) (node : Node σ) (queue : Queue σ) :
    Search σ δ :=
  { s with queue, fails := s.fails + [node].countP (s.hopeless D) }

theorem taken_of_pop {node : Node σ} {queue : Queue σ} (hpop : s.queue.pop = some (node, queue)) :
    Taken D s [node] (s.dropFirst D node queue) where
  toList := Queue.toList_of_pop hpop
  full hf := hf.pop hpop
  rest := rfl

theorem take_of_pop {node : Node σ} {queue : Queue σ} {count : Nat}
    (hpop : s.queue.pop = some (node, queue)) :
    take D (count + 1) s = (s.chosen D [node] ++ (take D count (s.dropFirst D node queue)).1,
      (take D count (s.dropFirst D node queue)).2) := by
  rw [take, hpop]
  cases hh : s.hopeless D node with
  | true =>
    have hb : Cost.beats (s.best D) (D.cost node.state) = false := by
      rw [hopeless, Bool.not_eq_true'] at hh
      exact hh
    have hdrop : s.dropFirst D node queue = { s with queue, fails := s.fails + 1 } := by
      rw [dropFirst, List.countP_singleton, hh]
      rfl
    simp [hb, hdrop, chosen, hh]
  | false =>
    have hb := hopeless_eq_false_iff.mp hh
    have hdrop : s.dropFirst D node queue = { s with queue } := by
      rw [dropFirst, List.countP_singleton, hh]
      rfl
    simp [hb, hdrop, chosen, hh]

/-- **A batch is taken from the front of the queue**: as many nodes as are asked for, or as there
are. -/
theorem take_taken (D : Domain σ δ) (count : Nat) (s : Search σ δ) :
    ∃ popped, Taken D s popped (take D count s).2 ∧ (take D count s).1 = s.chosen D popped ∧
      (s.queue.Full → popped.length = min count s.queue.toList.length) := by
  induction count generalizing s with
  | zero => exact ⟨[], .refl s, rfl, fun _ => by simp⟩
  | succ count ih =>
    cases hpop : s.queue.pop with
    | none =>
      rw [take, hpop]
      refine ⟨[], .refl s, rfl, fun hf => ?_⟩
      rw [(Queue.pop_eq_none_iff hf).mp hpop]
      simp
    | some popped =>
      obtain ⟨node, queue⟩ := popped
      have hone := taken_of_pop (D := D) hpop
      obtain ⟨more, htaken, hbatch, hlen⟩ := ih (s.dropFirst D node queue)
      rw [take_of_pop hpop]
      refine ⟨[node] ++ more, hone.trans htaken, ?_, fun hf => ?_⟩
      · rw [chosen_append, hbatch, chosen_congr hone.best]
      · rw [List.length_append, hlen (hone.full hf), hone.toList, List.length_append,
          List.length_singleton]
        omega

/-- **A batch for each worker is taken from the front of the queue**, all in all as many nodes as
the batches hold, or as there are. -/
theorem dispatch_taken (D : Domain σ δ) (workers : Nat) (s : Search σ δ) :
    ∃ popped, Taken D s popped (dispatch D workers s).2 ∧
      (dispatch D workers s).1.flatten = s.chosen D popped ∧
      (s.queue.Full →
        popped.length = min (workers * s.config.batchSize) s.queue.toList.length) := by
  induction workers generalizing s with
  | zero => exact ⟨[], .refl s, rfl, fun _ => by simp⟩
  | succ workers ih =>
    obtain ⟨first, htaken, hbatch, hlen⟩ := take_taken D s.config.batchSize s
    obtain ⟨more, hmore, hbatches, hlen'⟩ := ih (take D s.config.batchSize s).2
    rw [dispatch]
    refine ⟨first ++ more, htaken.trans hmore, ?_, fun hf => ?_⟩
    · rw [chosen_append, ← hbatch, ← chosen_congr htaken.best, ← hbatches]
      rfl
    · have hconfig : (take D s.config.batchSize s).2.config = s.config := by
        rw [htaken.rest]
      have hmore := hlen' (htaken.full hf)
      have hall := congrArg List.length htaken.toList
      rw [List.length_append] at hall ⊢
      rw [hconfig] at hmore
      rw [Nat.succ_mul]
      have := hlen hf
      omega

/-! ## What a search knows -/

/-- `s'` came after `s` without a change to the queue or the tuning, and its incumbent is at least
as good. -/
structure Improves (D : Domain σ δ) (s s' : Search σ δ) : Prop where
  queue : s'.queue = s.queue
  config : s'.config = s.config
  optimal : s'.optimal = s.optimal
  beats : ∀ c, Cost.beats (s'.best D) c = true → Cost.beats (s.best D) c = true

theorem Improves.refl (s : Search σ δ) : Improves D s s := ⟨rfl, rfl, rfl, fun _ h => h⟩

theorem Improves.trans (h : Improves D s s') (h' : Improves D s' s'') : Improves D s s'' :=
  ⟨h'.queue.trans h.queue, h'.config.trans h.config, h'.optimal.trans h.optimal,
    fun c hc => h.beats c (h'.beats c hc)⟩

/-- Whatever is offered below `root` and improves on the incumbent is offered below a pending
state. -/
structure Covered (D : Domain σ δ) (explored : σ → Prop) (offers : σ → Int → Prop) (root : σ)
    (s : Search σ δ) (pending : List σ) : Prop where
  incumbent : ∀ p, s.incumbent = some p → explored p ∧ D.solved p = true
  explored : ∀ t ∈ pending, explored t
  covers : ∀ c, offers root c → Cost.beats (s.best D) c = true → ∃ t ∈ pending, offers t c

section

variable {explored : σ → Prop} {offers : σ → Int → Prop} {rank : σ → Nat} {root : σ}
  {pending more : List σ}

/-- Lines are only written down. -/
theorem hear_ok {x : Traced α} {a : α} (h : x.result = .ok a) :
    ∃ s', s.hear x = (s', .ok a) ∧ s'.incumbent = s.incumbent ∧ Improves D s s' :=
  ⟨_, Prod.ext rfl h, rfl, rfl, rfl, rfl, fun _ hc => hc⟩

/-- States that offer nothing that improves need not stay pending. -/
theorem Covered.drop (h : Covered D explored offers root s pending) (hsub : more ⊆ pending)
    (hdrop : ∀ t ∈ pending, t ∉ more → ∀ c, offers t c → Cost.beats (s.best D) c = false) :
    Covered D explored offers root s more := by
  refine ⟨h.incumbent, fun t ht => h.explored t (hsub ht), fun c hc hb => ?_⟩
  obtain ⟨t, ht, hoffers⟩ := h.covers c hc hb
  refine ⟨t, by_contra fun hn => ?_, hoffers⟩
  rw [hdrop t ht hn c hoffers] at hb
  cases hb

/-- The order of the pending states does not matter. -/
theorem Covered.perm (h : Covered D explored offers root s pending)
    (hmem : ∀ t, t ∈ more ↔ t ∈ pending) : Covered D explored offers root s more :=
  h.drop (fun t ht => (hmem t).mp ht) fun t ht hn => absurd ((hmem t).mpr ht) hn

/-- Only the incumbent counts. -/
theorem Covered.congr (h : Covered D explored offers root s pending)
    (hincumbent : s'.incumbent = s.incumbent) : Covered D explored offers root s' pending where
  incumbent := hincumbent ▸ h.incumbent
  explored := h.explored
  covers := by
    rw [best, hincumbent]
    exact h.covers

/-- The states of the nodes on the queue. -/
def waiting (s : Search σ δ) : List σ := s.queue.toList.map Node.state

/-- Nodes that are taken off the queue without being bounded have nothing to offer. -/
theorem Covered.taken (ht : D.Trusted explored offers) {popped : List (Node σ)}
    (htaken : Taken D s popped s')
    (h : Covered D explored offers root s (s.waiting ++ pending)) :
    Covered D explored offers root s' (s.chosen D popped ++ s'.waiting ++ pending) := by
  have hwaiting : s.waiting = popped.map Node.state ++ s'.waiting := by
    rw [waiting, htaken.toList, List.map_append]
    rfl
  refine Covered.congr (h.drop ?_ ?_) (by rw [htaken.rest])
  · have hsub : s.chosen D popped ⊆ popped.map Node.state := by
      intro t ht
      obtain ⟨node, hn, -, rfl⟩ := mem_chosen.mp ht
      exact List.mem_map_of_mem hn
    rw [hwaiting]
    intro t ht
    simp only [List.mem_append] at ht ⊢
    exact ht.imp_left (Or.imp_left fun h => hsub h)
  · intro t hmem hn c hc
    rw [hwaiting, List.mem_append, List.mem_append] at hmem
    rw [List.mem_append, List.mem_append, not_or, not_or] at hn
    obtain (hmem | hmem) | hmem := hmem
    · obtain ⟨node, hnode, rfl⟩ := List.mem_map.mp hmem
      have hexplored : explored node.state := h.explored _ (by
        rw [hwaiting]
        simp [List.mem_map_of_mem hnode])
      refine Bool.eq_false_iff.mpr fun hb => hn.1.1 (mem_chosen.mpr ⟨node, hnode, ?_, rfl⟩)
      exact hopeless_eq_false_iff.mpr (Cost.beats_of_le (ht.cost_le _ c hexplored hc) hb)
    · exact absurd hmem hn.1.2
    · exact absurd hmem hn.2

/-! ## Collecting bounds -/

/-- `b` is the bound of a state of the search, computed against `best`. -/
structure Computed (D : Domain σ δ) (explored : σ → Prop) (best : Option Int) (b : Bound σ δ) :
    Prop where
  root : explored b.root
  compute : (Bound.compute D b.root best).result = .ok b

theorem isBetterThan_iff {b : Bound σ δ} {best : Option Int} : b.isBetterThan D best = true ↔
    b.label ≠ .failed ∧ D.solved b.primal = true ∧ Cost.beats best (D.cost b.primal) = true := by
  simp [Bound.isBetterThan, and_assoc]

/-- **What becomes of a bound**: a failed one is counted as such, another one is counted, and kept
and reported if it improves. -/
theorem account_cases (D : Domain σ δ) (s : Search σ δ) (b : Bound σ δ) :
    (b.label = .failed ∧ s.account D b = { s with fails := s.fails + 1 }) ∨
    (b.isBetterThan D (s.best D) = true ∧ s.account D b =
      { s with nodes := s.nodes + 1, incumbent := some b.primal }.report b) ∨
    (b.label ≠ .failed ∧ b.isBetterThan D (s.best D) = false ∧
      s.account D b = { s with nodes := s.nodes + 1 }) := by
  unfold account
  by_cases hf : b.isFailed = true
  · rw [if_pos hf]
    exact .inl ⟨by simpa [Bound.isFailed] using hf, rfl⟩
  · rw [if_neg hf]
    have hl : b.label ≠ .failed := by simpa [Bound.isFailed] using hf
    cases hb : b.isBetterThan D (s.best D) with
    | true => exact .inr (.inl ⟨rfl, if_pos hb⟩)
    | false => exact .inr (.inr ⟨hl, rfl, if_neg (Bool.eq_false_iff.mp hb)⟩)

theorem account_improves (D : Domain σ δ) (s : Search σ δ) (b : Bound σ δ) :
    Improves D s (s.account D b) := by
  obtain ⟨-, h⟩ | ⟨hb, h⟩ | ⟨-, -, h⟩ := account_cases D s b
  · rw [h]
    exact ⟨rfl, rfl, rfl, fun _ hc => hc⟩
  · rw [h]
    refine ⟨rfl, rfl, rfl, fun c hc => ?_⟩
    have hlt : c < D.cost b.primal := of_decide_eq_true hc
    exact Cost.beats_of_le (Int.le_of_lt hlt) (isBetterThan_iff.mp hb).2.2
  · rw [h]
    exact ⟨rfl, rfl, rfl, fun _ hc => hc⟩

/-- What a bound is branched on, if `next` are the successors of its root. -/
def branches (D : Domain σ δ) (s : Search σ δ) (b : Bound σ δ) (next : List σ) :
    List (Node σ) :=
  (next.filter fun state => Cost.beats (s.best D) (D.cost state)).map fun state =>
    ⟨state, b.dualBound D, D.cost state⟩

theorem mem_branches {b : Bound σ δ} {next : List σ} {node : Node σ}
    (h : node ∈ s.branches D b next) :
    node.state ∈ next ∧ node.primal = D.cost node.state := by
  obtain ⟨state, hs, rfl⟩ := List.mem_map.mp h
  exact ⟨(List.mem_filter.mp hs).1, rfl⟩

theorem mem_states_branches {b : Bound σ δ} {next : List σ} {t : σ} (h : t ∈ next)
    (hb : Cost.beats (s.best D) (D.cost t) = true) : t ∈ (s.branches D b next).map Node.state :=
  List.mem_map.mpr ⟨⟨t, b.dualBound D, D.cost t⟩,
    List.mem_map_of_mem (List.mem_filter.mpr ⟨h, hb⟩), rfl⟩

theorem children_of_relaxed {b : Bound σ δ} {next : List σ} (hl : b.label = .relaxed)
    (he : D.expand b.root b.inferenceDual (s.best D) = .ok next) :
    (s.children D b).result = .ok (s.branches D b next) := by
  have hr : b.isRelaxed = true := by simp [Bound.isRelaxed, hl]
  rw [children, if_pos hr, Traced.result_bind, Space.result_branch, he]
  rfl

theorem children_of_settled {b : Bound σ δ} (hl : b.label ≠ .relaxed) :
    (s.children D b).result = .ok [] := by
  have hr : ¬b.isRelaxed = true := by simp [Bound.isRelaxed, hl]
  rw [children, if_neg hr]
  rfl

/-- An incumbent that a bound brings is a solution of the search. -/
theorem Covered.incumbent_account (ht : D.Trusted explored offers) {best : Option Int}
    {b : Bound σ δ} (hb : Computed D explored best b)
    (h : Covered D explored offers root s pending) :
    ∀ p, (s.account D b).incumbent = some p → explored p ∧ D.solved p = true := by
  obtain ⟨-, hs⟩ | ⟨hbetter, hs⟩ | ⟨-, -, hs⟩ := account_cases D s b
  · rw [hs]
    exact h.incumbent
  · obtain ⟨hl, hsolved, -⟩ := isBetterThan_iff.mp hbetter
    rw [hs]
    intro p hp
    cases hp
    exact ⟨(ht.sound b.root best b hb.root hb.compute).2.primal hl, hsolved⟩
  · rw [hs]
    exact h.incumbent

/-- The bound is settled: nothing below its root improves on what the incumbent is then. -/
theorem not_beats_account (ht : D.Trusted explored offers) {best : Option Int} {b : Bound σ δ}
    (hb : Computed D explored best b)
    (hbest : ∀ c, Cost.beats (s.best D) c = true → Cost.beats best c = true)
    (hl : b.label ≠ .relaxed) {c : Int} (hc : offers b.root c) :
    Cost.beats ((s.account D b).best D) c = false := by
  refine Bool.eq_false_iff.mpr fun hbeats => ?_
  have hold := (account_improves D s b).beats c hbeats
  have hsound := (ht.sound b.root best b hb.root hb.compute).2
  cases hlabel : b.label with
  | relaxed => exact hl hlabel
  | failed =>
    have := hsound.failed hlabel c hc
    rw [hbest c hold] at this
    cases this
  | exact =>
    obtain ⟨hsolved, hle⟩ := hsound.exact hlabel c hc (hbest c hold)
    have hbetter : b.isBetterThan D (s.best D) = true :=
      isBetterThan_iff.mpr ⟨by rw [hlabel]; decide, hsolved, Cost.beats_of_le hle hold⟩
    obtain ⟨hf, -⟩ | ⟨-, hs⟩ | ⟨-, hnot, -⟩ := account_cases D s b
    · rw [hf] at hlabel; cases hlabel
    · rw [hs] at hbeats
      have hlt : c < D.cost b.primal := of_decide_eq_true hbeats
      omega
    · rw [hnot] at hbetter; cases hbetter

/-- **A bound is collected**: its root is replaced with the nodes it is branched on. -/
theorem Covered.account (ht : D.Trusted explored offers) (ha : D.Answering explored rank)
    {best : Option Int} {b : Bound σ δ} (hb : Computed D explored best b)
    (hbest : ∀ c, Cost.beats (s.best D) c = true → Cost.beats best c = true)
    (h : Covered D explored offers root s (b.root :: pending)) :
    ∃ nodes, ((s.account D b).children D b).result = .ok nodes ∧
      Covered D explored offers root (s.account D b) (nodes.map Node.state ++ pending) ∧
      ∀ node ∈ nodes, node.primal = D.cost node.state ∧ rank node.state < rank b.root := by
  have hincumbent := h.incumbent_account ht hb
  have himproves := account_improves D s b
  by_cases hl : b.label = .relaxed
  · obtain ⟨next, hnext, hrank⟩ :=
      ha.branches b.root best b hb.root hb.compute hl ((s.account D b).best D)
    obtain ⟨hexplored, hkeeps⟩ := (ht.sound b.root best b hb.root hb.compute).2.relaxed hl _ _ hnext
    refine ⟨_, children_of_relaxed hl hnext, ⟨hincumbent, fun t hmem => ?_, fun c hc hbeats => ?_⟩,
      fun node hnode => ⟨(mem_branches hnode).2, hrank _ (mem_branches hnode).1⟩⟩
    · rcases List.mem_append.mp hmem with hmem | hmem
      · obtain ⟨node, hnode, rfl⟩ := List.mem_map.mp hmem
        exact hexplored _ (mem_branches hnode).1
      · exact h.explored t (List.mem_cons_of_mem _ hmem)
    · obtain ⟨t, hmem, hoffers⟩ := h.covers c hc (himproves.beats c hbeats)
      rcases List.mem_cons.mp hmem with rfl | hmem
      · obtain ⟨t, hmem, hoffers⟩ := hkeeps c hoffers hbeats
        have hcost := Cost.beats_of_le (ht.cost_le t c (hexplored t hmem) hoffers) hbeats
        exact ⟨t, List.mem_append_left _ (mem_states_branches hmem hcost), hoffers⟩
      · exact ⟨t, List.mem_append_right _ hmem, hoffers⟩
  · refine ⟨[], children_of_settled hl, ⟨hincumbent, fun t hmem => ?_, fun c hc hbeats => ?_⟩,
      fun node hnode => by cases hnode⟩
    · exact h.explored t (List.mem_cons_of_mem _ hmem)
    · obtain ⟨t, hmem, hoffers⟩ := h.covers c hc (himproves.beats c hbeats)
      rcases List.mem_cons.mp hmem with rfl | hmem
      · have := not_beats_account ht hb hbest hl hoffers
        rw [hbeats] at this
        cases this
      · exact ⟨t, hmem, hoffers⟩

/-- What collecting the bounds `bounds` with the answer `nodes` has changed. -/
structure Collected (D : Domain σ δ) (explored : σ → Prop) (offers : σ → Int → Prop)
    (rank : σ → Nat) (root : σ) (s : Search σ δ) (bounds : List (Bound σ δ))
    (nodes : List (Node σ)) (s' : Search σ δ) (pending : List σ) : Prop where
  improves : Improves D s s'
  covered : Covered D explored offers root s' (nodes.map Node.state ++ pending)
  nodes : ∀ node ∈ nodes, node.primal = D.cost node.state ∧
    ∃ b ∈ bounds, rank node.state < rank b.root

/-- **The bounds of one worker are collected**, and none of them faults. -/
theorem Covered.collect (ht : D.Trusted explored offers) (ha : D.Answering explored rank)
    {best : Option Int} {bounds : List (Bound σ δ)}
    (hb : ∀ b ∈ bounds, Computed D explored best b)
    (hbest : ∀ c, Cost.beats (s.best D) c = true → Cost.beats best c = true)
    (h : Covered D explored offers root s (bounds.map Bound.root ++ pending)) :
    ∃ nodes s', s.collect D bounds = (s', .ok nodes) ∧
      Collected D explored offers rank root s bounds nodes s' pending := by
  induction bounds generalizing s pending with
  | nil => exact ⟨[], s, rfl, .refl s, h, fun node hnode => by cases hnode⟩
  | cons b bounds ih =>
    have hhead : Covered D explored offers root s
        (b.root :: (bounds.map Bound.root ++ pending)) := h
    obtain ⟨first, hchildren, hcovered, hfirst⟩ :=
      hhead.account ht ha (hb b List.mem_cons_self) hbest
    have himproves := account_improves D s b
    obtain ⟨s₁, hhear, hincumbent, hsame⟩ := hear_ok (D := D) (s := s.account D b) hchildren
    have hnow : Improves D s s₁ := himproves.trans hsame
    -- the other bounds of the worker are collected with the new nodes pending
    have hnext : Covered D explored offers root s₁
        (bounds.map Bound.root ++ (first.map Node.state ++ pending)) :=
      (hcovered.congr hincumbent).perm fun t => by
        simp only [List.mem_append]
        tauto
    obtain ⟨rest, s₂, hcollect, himproves₂, hcovered₂, hrest⟩ :=
      ih (fun b hb' => hb b (List.mem_cons_of_mem _ hb')) (fun c hc => hbest c (hnow.beats c hc))
        hnext
    refine ⟨first ++ rest, s₂, ?_, hnow.trans himproves₂, hcovered₂.perm fun t => ?_,
      fun node hnode => ?_⟩
    · simp only [Search.collect, hhear, Outcome.andThen, hcollect]
    · simp only [List.map_append, List.mem_append]
      tauto
    · rcases List.mem_append.mp hnode with hnode | hnode
      · obtain ⟨hprimal, hrank⟩ := hfirst node hnode
        exact ⟨hprimal, b, List.mem_cons_self, hrank⟩
      · obtain ⟨hprimal, b', hb', hrank⟩ := hrest node hnode
        exact ⟨hprimal, b', List.mem_cons_of_mem _ hb', hrank⟩

/-- The roots of the bounds that are not collected, because a budget is spent before. -/
def leftover (D : Domain σ δ) (clock : Nat → Nat) :
    Nat → List (List (Bound σ δ)) → Search σ δ → List σ
  | _, [], _ => []
  | worker, bounds :: more, s =>
    if s.mustStop (clock worker) then (bounds :: more).flatten.map Bound.root
    else leftover D clock (worker + 1) more (s.collect D bounds).1

/-- Without budgets, none is ever spent. -/
theorem mustStop_of_unlimited (h : s.config.Unlimited) (elapsed : Nat) :
    s.mustStop elapsed = false := by
  simp [mustStop, h.1, h.2]

/-- **The bounds of all workers are collected, but for those left over.** -/
theorem Covered.collectAll (ht : D.Trusted explored offers) (ha : D.Answering explored rank)
    {best : Option Int} {batches : List (List (Bound σ δ))}
    (hb : ∀ bounds ∈ batches, ∀ b ∈ bounds, Computed D explored best b)
    (hbest : ∀ c, Cost.beats (s.best D) c = true → Cost.beats best c = true)
    (h : Covered D explored offers root s (batches.flatten.map Bound.root ++ pending))
    (clock : Nat → Nat) (worker : Nat) :
    ∃ nodes stopped s', s.collectAll D clock worker batches = (s', .ok (nodes, stopped)) ∧
      (stopped = false → s.leftover D clock worker batches = []) ∧
      (s.config.Unlimited → stopped = false) ∧
      Collected D explored offers rank root s batches.flatten nodes s'
        (s.leftover D clock worker batches ++ pending) := by
  induction batches generalizing s pending worker with
  | nil =>
    exact ⟨[], false, s, rfl, fun _ => rfl, fun _ => rfl, .refl s, h,
      fun node hnode => by cases hnode⟩
  | cons bounds batches ih =>
    unfold Search.collectAll leftover
    by_cases hstop : s.mustStop (clock worker) = true
    · rw [if_pos hstop, if_pos hstop]
      refine ⟨[], true, s, rfl, fun hf => (by cases hf), fun hu => ?_, .refl s, h,
        fun node hnode => (by cases hnode)⟩
      rw [mustStop_of_unlimited hu] at hstop
      exact absurd hstop Bool.false_ne_true
    · rw [if_neg hstop, if_neg hstop]
      rw [List.flatten_cons, List.map_append, List.append_assoc] at h
      obtain ⟨first, s₁, hcollect, himproves, hcovered, hfirst⟩ :=
        h.collect ht ha (hb bounds List.mem_cons_self) hbest
      have hnext : Covered D explored offers root s₁
          (batches.flatten.map Bound.root ++ (first.map Node.state ++ pending)) :=
        hcovered.perm fun t => by
          simp only [List.mem_append]
          tauto
      obtain ⟨rest, stopped, s₂, hall, hleft, hunlimited, himproves₂, hcovered₂, hrest⟩ :=
        ih (fun bounds hmem => hb bounds (List.mem_cons_of_mem _ hmem))
          (fun c hc => hbest c (himproves.beats c hc)) hnext (worker + 1)
      rw [hcollect]
      refine ⟨first ++ rest, stopped, s₂, ?_, hleft, fun hu => hunlimited (himproves.config ▸ hu),
        himproves.trans himproves₂, hcovered₂.perm fun t => ?_, fun node hnode => ?_⟩
      · simp only [Outcome.andThen, hall]
      · simp only [List.map_append, List.mem_append]
        tauto
      · rw [List.flatten_cons]
        rcases List.mem_append.mp hnode with hnode | hnode
        · obtain ⟨hprimal, b, hb, hrank⟩ := hfirst node hnode
          exact ⟨hprimal, b, List.mem_append_left _ hb, hrank⟩
        · obtain ⟨hprimal, b, hb, hrank⟩ := hrest node hnode
          exact ⟨hprimal, b, List.mem_append_right _ hb, hrank⟩

/-! ## Extending the queue -/

/-- The search with the promising ones of these nodes on its queue. -/
def enqueue (D : Domain σ δ) (s : Search σ δ) (nodes : List (Node σ)) : Search σ δ :=
  { s with queue := s.queue.extend nodes (s.best D) }

theorem waiting_enqueue (D : Domain σ δ) (s : Search σ δ) (nodes : List (Node σ)) :
    (s.enqueue D nodes).waiting =
      (Queue.sorted nodes (s.best D)).map Node.state ++ s.waiting := by
  rw [waiting, enqueue, Queue.toList_extend, List.map_append, waiting]

/-- Nodes that the queue turns down have nothing to offer. -/
theorem Covered.enqueue (ht : D.Trusted explored offers) {nodes : List (Node σ)}
    (hnodes : ∀ node ∈ nodes, node.primal = D.cost node.state)
    (h : Covered D explored offers root s (nodes.map Node.state ++ s.waiting ++ pending)) :
    Covered D explored offers root (s.enqueue D nodes)
      ((s.enqueue D nodes).waiting ++ pending) := by
  rw [waiting_enqueue]
  refine Covered.congr (h.drop ?_ ?_) rfl
  · intro t ht
    simp only [List.mem_append, List.mem_map] at ht ⊢
    exact ht.imp_left (Or.imp_left fun ⟨node, hn, he⟩ => ⟨node, (Queue.mem_sorted.mp hn).1, he⟩)
  · intro t hmem hn c hc
    simp only [List.mem_append, not_or] at hmem hn
    obtain (hmem | hmem) | hmem := hmem
    · obtain ⟨node, hnode, rfl⟩ := List.mem_map.mp hmem
      have hexplored : explored node.state := h.explored _ (by
        simp [List.mem_map_of_mem hnode])
      refine Bool.eq_false_iff.mpr fun hb => hn.1.1 (List.mem_map_of_mem
        (Queue.mem_sorted.mpr ⟨hnode, ?_⟩))
      rw [Node.promising, hnodes node hnode, Bool.or_eq_true]
      exact .inr (Cost.beats_of_le (ht.cost_le _ c hexplored hc) hb)
    · exact absurd hmem hn.1.2
    · exact absurd hmem hn.2

/-- The ranks of the states on the queue. -/
def ranks (rank : σ → Nat) (s : Search σ δ) : Multiset Nat := s.waiting.map rank

/-- **Replacing nodes with nodes of lower rank counts down.** -/
theorem ranks_lt {popped nodes rest : List (Node σ)} (hpopped : popped ≠ [])
    (hs : s.queue.toList = popped ++ rest) (hs' : s'.queue.toList = nodes ++ rest)
    (hrank : ∀ node ∈ nodes, ∃ node' ∈ popped, rank node.state < rank node'.state) :
    Multiset.IsDershowitzMannaLT (s'.ranks rank) (s.ranks rank) := by
  refine ⟨(rest.map fun node => rank node.state : List Nat),
    (nodes.map fun node => rank node.state : List Nat),
    (popped.map fun node => rank node.state : List Nat), ?_, ?_, ?_, fun y hy => ?_⟩
  · rw [Multiset.empty_eq_zero, Ne, Multiset.coe_eq_zero, List.map_eq_nil_iff]
    exact hpopped
  · rw [ranks, waiting, hs', Multiset.coe_add, Multiset.coe_eq_coe, List.map_append,
      List.map_append, List.map_map, List.map_map]
    exact List.perm_append_comm
  · rw [ranks, waiting, hs, Multiset.coe_add, Multiset.coe_eq_coe, List.map_append,
      List.map_append, List.map_map, List.map_map]
    exact List.perm_append_comm
  · obtain ⟨node, hnode, rfl⟩ := List.mem_map.mp (Multiset.mem_coe.mp hy)
    obtain ⟨node', hnode', hlt⟩ := hrank node hnode
    exact ⟨_, Multiset.mem_coe.mpr (List.mem_map_of_mem hnode'), hlt⟩

/-! ## Rounds -/

/-- The states of a batch are bounded, and none of the bounds faults. -/
theorem exists_bounds (ht : D.Trusted explored offers) (ha : D.Answering explored rank)
    (best : Option Int) {states : List σ} (h : ∀ t ∈ states, explored t) :
    ∃ bounds, (states.mapM fun t => (Bound.compute D t best).result) = .ok bounds ∧
      bounds.map Bound.root = states ∧ ∀ b ∈ bounds, Computed D explored best b := by
  induction states with
  | nil => exact ⟨[], rfl, rfl, fun b hb => by cases hb⟩
  | cons t states ih =>
    obtain ⟨bounds, hm, hroots, hcomputed⟩ := ih fun t ht => h t (List.mem_cons_of_mem _ ht)
    have hexplored := h t List.mem_cons_self
    obtain ⟨b, hb⟩ := ha.bounds t best hexplored
    have hroot : b.root = t := (ht.sound t best b hexplored hb).1
    refine ⟨b :: bounds, ?_, ?_, fun b' hb' => ?_⟩
    · rw [List.mapM_cons, hb, hm]
      rfl
    · rw [List.map_cons, hroot, hroots]
    · rcases List.mem_cons.mp hb' with rfl | hb'
      · exact ⟨hroot ▸ hexplored, hroot ▸ hb⟩
      · exact hcomputed b' hb'

/-- All batches are bounded, and none of the bounds faults. -/
theorem exists_boundAll (ht : D.Trusted explored offers) (ha : D.Answering explored rank)
    (s : Search σ δ) {batches : List (List σ)} (h : ∀ t ∈ batches.flatten, explored t) :
    ∃ bounds, (s.boundAll D batches).result = .ok bounds ∧
      bounds.flatten.map Bound.root = batches.flatten ∧
      ∀ batch ∈ bounds, ∀ b ∈ batch, Computed D explored (s.best D) b := by
  induction batches with
  | nil => exact ⟨[], rfl, rfl, fun batch hmem => by cases hmem⟩
  | cons batch batches ih =>
    rw [List.flatten_cons] at h
    obtain ⟨bounds, hall, hroots, hcomputed⟩ := ih fun t ht => h t (List.mem_append_right _ ht)
    obtain ⟨first, hm, hroots₁, hcomputed₁⟩ :=
      exists_bounds ht ha (s.best D) fun t ht => h t (List.mem_append_left _ ht)
    refine ⟨first :: bounds, ?_, ?_, fun batch hmem => ?_⟩
    · simp only [boundAll, Traced.result_sequence] at hall ⊢
      rw [List.map_cons, List.mapM_cons, hall, Traced.result_sequence, List.mapM_map]
      change (batch.mapM fun t => (Bound.compute D t (s.best D)).result) >>= _ = _
      rw [hm]
      rfl
    · rw [List.flatten_cons, List.map_append, hroots₁, hroots, List.flatten_cons]
    · rcases List.mem_cons.mp hmem with rfl | hmem
      · exact hcomputed₁
      · exact hcomputed batch hmem

/-- The first half of a round, `s'` being the search after it and `bounds` its answer. -/
structure Bounded (D : Domain σ δ) (explored : σ → Prop) (offers : σ → Int → Prop) (root : σ)
    (s : Search σ δ) (popped : List (Node σ)) (bounds : List (List (Bound σ δ)))
    (s' : Search σ δ) (pending : List σ) : Prop where
  toList : s.queue.toList = popped ++ s'.queue.toList
  full : s.queue.Full → s'.queue.Full
  length : s.queue.Full →
    popped.length = min (s.config.workers * s.config.batchSize) s.queue.toList.length
  config : s'.config = s.config
  optimal : s'.optimal = s.optimal
  best : s'.best D = s.best D
  roots : bounds.flatten.map Bound.root = s.chosen D popped
  computed : ∀ batch ∈ bounds, ∀ b ∈ batch, Computed D explored (s.best D) b
  covered : Covered D explored offers root s'
    (bounds.flatten.map Bound.root ++ s'.waiting ++ pending)

/-- **Bounding the nodes of a round answers**, and only loses nodes that have nothing to offer. -/
theorem Covered.bound (ht : D.Trusted explored offers) (ha : D.Answering explored rank)
    (h : Covered D explored offers root s (s.waiting ++ pending)) :
    ∃ popped bounds s', s.bound D = (s', .ok bounds) ∧
      Bounded D explored offers root s popped bounds s' pending := by
  obtain ⟨popped, htaken, hbatches, hlen⟩ :=
    dispatch_taken D s.config.workers { s with rounds := s.rounds + 1 }
  generalize hd : dispatch D s.config.workers { s with rounds := s.rounds + 1 } = d
    at htaken hbatches
  obtain ⟨batches, s₁⟩ := d
  dsimp only at htaken hbatches
  have hcovered : Covered D explored offers root s₁ (batches.flatten ++ s₁.waiting ++ pending) := by
    rw [hbatches]
    exact Covered.taken ht htaken (h.congr rfl)
  obtain ⟨bounds, hall, hroots, hcomputed⟩ := exists_boundAll ht ha s₁
    fun t (ht : t ∈ batches.flatten) => hcovered.explored t (by
      simp only [List.mem_append]
      exact .inl (.inl ht))
  obtain ⟨s₂, hhear, hincumbent, hsame⟩ := hear_ok (D := D) (s := s₁) hall
  have hbest : s₁.best D = s.best D := htaken.best
  have hbest₂ : s₂.best D = s.best D := by
    rw [best, hincumbent]
    exact hbest
  have hwaiting : s₂.waiting = s₁.waiting := by rw [waiting, hsame.queue, waiting]
  refine ⟨popped, bounds, s₂, ?_, ?_⟩
  · rw [Search.bound, hd]
    exact hhear
  · exact {
      toList := by rw [hsame.queue, ← htaken.toList]
      full := fun hf => by
        rw [hsame.queue]
        exact htaken.full hf
      length := hlen
      config := by rw [hsame.config, htaken.rest]
      optimal := by rw [hsame.optimal, htaken.rest]
      best := hbest₂
      roots := hroots.trans hbatches
      computed := fun batch hmem b hb => hbest ▸ hcomputed batch hmem b hb
      covered := by
        rw [hroots, hwaiting]
        exact hcovered.congr hincumbent }

/-- The states that a round takes off the queue and loses, because a budget is spent in it. -/
def lost (D : Domain σ δ) (clock : Nat → Nat) (s : Search σ δ) : List σ :=
  match s.bound D with
  | (s', .ok bounds) => s'.leftover D clock 0 bounds
  | (_, .error _) => []

/-- What one round changes. -/
structure Rounded (D : Domain σ δ) (explored : σ → Prop) (offers : σ → Int → Prop)
    (rank : σ → Nat) (root : σ) (s s' : Search σ δ) (pending : List σ) : Prop where
  config : s'.config = s.config
  optimal : s'.optimal = s.optimal
  full : s.queue.Full → s'.queue.Full
  covered : Covered D explored offers root s' (s'.waiting ++ pending)
  /-- Nodes were replaced with nodes of lower rank. -/
  ranks : s.queue.Full → s.queue.toList ≠ [] → 0 < s.config.workers → 0 < s.config.batchSize →
    Multiset.IsDershowitzMannaLT (s'.ranks rank) (s.ranks rank)

/-- **A round answers, and loses nothing but what it lost when a budget was spent.** -/
theorem Covered.round (ht : D.Trusted explored offers) (ha : D.Answering explored rank)
    (clock : Nat → Nat) (h : Covered D explored offers root s (s.waiting ++ pending)) :
    ∃ stopped s', s.round D clock = (s', .ok stopped) ∧
      (stopped = false → s.lost D clock = []) ∧ (s.config.Unlimited → stopped = false) ∧
      Rounded D explored offers rank root s s' (s.lost D clock ++ pending) := by
  obtain ⟨popped, bounds, s₁, hbound, hb⟩ := h.bound ht ha
  have hbounds : Covered D explored offers root s₁
      (bounds.flatten.map Bound.root ++ (s₁.waiting ++ pending)) := by
    rw [← List.append_assoc]
    exact hb.covered
  obtain ⟨nodes, stopped, s₂, hcollect, hleft, hunlimited, hc⟩ :=
    hbounds.collectAll ht ha hb.computed (fun c hc => by rwa [hb.best] at hc) clock 0
  have hlost : s.lost D clock = s₁.leftover D clock 0 bounds := by rw [lost, hbound]
  have hwaiting : s₂.waiting = s₁.waiting := by rw [waiting, hc.improves.queue, waiting]
  have hnodes : Covered D explored offers root s₂
      (nodes.map Node.state ++ s₂.waiting ++ (s.lost D clock ++ pending)) :=
    hc.covered.perm fun t => by
      rw [hlost, hwaiting]
      simp only [List.mem_append]
      tauto
  have henqueue := hnodes.enqueue ht fun node hn => (hc.nodes node hn).1
  have hconfig : (s₂.enqueue D nodes).config = s.config := hc.improves.config.trans hb.config
  refine ⟨stopped || (s₂.enqueue D nodes).mustStop (clock s₂.config.workers),
    s₂.enqueue D nodes, ?_, fun hstop => ?_, fun hu => ?_, hconfig,
    hc.improves.optimal.trans hb.optimal, fun hf => ?_, henqueue, fun hf hne hworkers hbatch => ?_⟩
  · rw [Search.round, hbound]
    simp only [Outcome.andThen, settle, hcollect]
    rfl
  · rw [hlost]
    exact hleft (Bool.or_eq_false_iff.mp hstop).1
  · rw [hunlimited (hb.config ▸ hu), mustStop_of_unlimited (hconfig ▸ hu)]
    rfl
  · refine Queue.Full.extend ?_ _ _
    rw [hc.improves.queue]
    exact hb.full hf
  · have hafter : (s₂.enqueue D nodes).queue.toList =
        Queue.sorted nodes (s₂.best D) ++ s₁.queue.toList := by
      rw [Search.enqueue, Queue.toList_extend, hc.improves.queue]
    refine ranks_lt (fun hnil => ?_) hb.toList hafter fun node hnode => ?_
    · have hlen := hb.length hf
      have hpos := Nat.mul_pos hworkers hbatch
      have hqueue := List.length_pos_of_ne_nil hne
      rw [hnil, List.length_nil] at hlen
      omega
    · obtain ⟨-, b, hmem, hlt⟩ := hc.nodes node (Queue.mem_sorted.mp hnode).1
      have hroot : b.root ∈ s.chosen D popped := hb.roots ▸ List.mem_map_of_mem hmem
      obtain ⟨node', hnode', -, hstate⟩ := mem_chosen.mp hroot
      exact ⟨node', hnode', hstate ▸ hlt⟩

end

end Search

end Fathom
