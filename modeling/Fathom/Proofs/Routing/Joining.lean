import Fathom.Proofs.Routing.Routes
import Fathom.Routing.Chains
import Mathlib.Algebra.BigOperators.Group.List.Basic
import Mathlib.Tactic.SplitIfs

/-!
# What joining two chains does

`Chains.tie` is the state after a choice, its cost computed exactly: `Chains.assign` answers with it
or overflows. `Chains.Coherent` says what the links of a state tell. The nodes of a chain form a
thread, which is passed from its first node to its last; the nodes of a thread know the same nodes
before and after them; and "comes before" is a strict partial order of the threads that includes
what roles demand.

Joining two threads changes that order as little as possible (`Joins.mem_before_tie`): whatever came
before one of the two, or lies on them, now comes before whatever came after one of them, or lies on
them. `mayJoin` excludes just the cases where the result would not be an order.

Results:
* `coherent_bare`: the root is coherent;
* `Joins.coherent`: so is every choice among the candidates.
-/

namespace Fathom.Routing.Chains

variable {P : Instance} {s s' : Chains} {a b o t x y z : Nat} {c : List Nat}
  {relaxation : Option Assignment}

/-! ## Choices -/

/-- The state where `target` is the successor of `origin`, its cost computed exactly. -/
def tie (P : Instance) (s : Chains) (relaxation : Option Assignment) (origin target : Nat) :
    Chains :=
  let joined : Chains := {
    cost := s.cost + P.cost origin target
    targets := s.targets.filter (· != target)
    links := s.join origin target
    depth := s.depth + 1
    relaxation }
  joined.propagate origin

theorem assign_eq_ok_iff : s.assign P relaxation o t = .ok s' ↔
    Cost.InRange (s.cost + P.cost o t) ∧ s.tie P relaxation o t = s' := by
  rw [assign, bind_eq_ok_iff]
  constructor
  · rintro ⟨cost, hcost, h⟩
    obtain ⟨hrange, rfl⟩ := Cost.add_eq_ok_iff.mp hcost
    exact ⟨hrange, Except.ok.inj h⟩
  · rintro ⟨hrange, rfl⟩
    exact ⟨_, Cost.add_eq_ok_iff.mpr ⟨hrange, rfl⟩, rfl⟩

@[simp] theorem tie_cost : (s.tie P relaxation o t).cost = s.cost + P.cost o t := rfl

@[simp] theorem tie_depth : (s.tie P relaxation o t).depth = s.depth + 1 := rfl

@[simp] theorem tie_targets :
    (s.tie P relaxation o t).targets = s.targets.filter (· != t) := rfl

@[simp] theorem tie_size : (s.tie P relaxation o t).size = s.size := by
  simp [tie, propagate, join, size]

/-! ## Links -/

theorem getElem?_links (ha : a < s.size) : s.links[a]? = some (s.link a) := by
  have ha' : a < s.links.size := ha
  simp [link, Array.getD, ha']

theorem link_of_le (ha : s.size ≤ a) : s.link a = Link.unknown := by
  have ha' : ¬a < s.links.size := Nat.not_lt.mpr ha
  simp [link, Array.getD, ha']

/-- A link that tells something is the link of a node. -/
theorem lt_of_link (h : s.link a ≠ Link.unknown) : a < s.size :=
  Nat.lt_of_not_le fun hle => h (link_of_le hle)

theorem lt_of_mem_chain (h : x ∈ (s.link a).chain) : a < s.size :=
  lt_of_link fun hu => NodeSet.not_mem_empty x (by rwa [hu] at h)

theorem lt_of_mem_before (h : x ∈ (s.link a).before) : a < s.size :=
  lt_of_link fun hu => NodeSet.not_mem_empty x (by rwa [hu] at h)

theorem lt_of_mem_after (h : x ∈ (s.link a).after) : a < s.size :=
  lt_of_link fun hu => NodeSet.not_mem_empty x (by rwa [hu] at h)

theorem lt_of_successor (h : s.successor a = some b) : a < s.size :=
  lt_of_link fun hu => by rw [successor, hu] at h; cases h

/-- Mapping the links by position. -/
theorem link_mapIdx {f : Nat → Link → Link} (ha : a < s.size) :
    ({ s with links := s.links.mapIdx f } : Chains).link a = f a (s.link a) := by
  have h : (s.links.mapIdx f)[a]? = some (f a (s.link a)) := by
    rw [Array.getElem?_mapIdx, getElem?_links ha, Option.map_some]
  rw [link, Array.getD_eq_getD_getElem?, h, Option.getD_some]

/-- What propagation from a chain does to the link of a node. -/
theorem link_propagate (ha : a ∉ (s.link a).after) (hb : b < s.size) :
    (s.propagate a).link b = { s.link b with
      before := if b ∈ (s.link a).after then
          (((s.link a).before.union (s.link a).chain).union (s.link b).before).diff (s.link b).chain
        else (s.link b).before
      after := if b ∈ (s.link a).before then
          (((s.link a).after.union (s.link a).chain).union (s.link b).after).diff (s.link b).chain
        else (s.link b).after } := by
  let forward : Nat → Link → Link := fun b m =>
    if b ∈ (s.link a).after then
      { m with
        before := (((s.link a).before.union (s.link a).chain).union m.before).diff m.chain }
    else m
  let half : Chains := { s with links := s.links.mapIdx forward }
  have hsize : half.size = s.size := by simp [half, size]
  have hlink : ∀ {b}, b < s.size → half.link b = forward b (s.link b) := link_mapIdx
  have hsource : half.link a = s.link a := by
    obtain hlt | hle := Nat.lt_or_ge a s.size
    · rw [hlink hlt]
      exact if_neg ha
    · rw [link_of_le hle, link_of_le (hsize ▸ hle)]
  have hprop : (s.propagate a).link b = if b ∈ (half.link a).before then
      { half.link b with
        after := (((half.link a).after.union (half.link a).chain).union (half.link b).after).diff
          (half.link b).chain }
      else half.link b := link_mapIdx (s := half) (hsize ▸ hb)
  rw [hprop, hsource, hlink hb]
  simp only [forward]
  split <;> split <;> rfl

/-! ## Coherent states -/

/-- The nodes of a chain in the order they are passed. -/
structure Thread (P : Instance) (s : Chains) (c : List Nat) : Prop where
  linked : c.IsChain fun a b => s.successor a = some b
  nodup : c.Nodup
  chain : ∀ {a}, a ∈ c → ∀ {b}, b ∈ (s.link a).chain ↔ b ∈ c
  /-- No node is passed after one that it has to precede. -/
  ordered : c.Pairwise fun a b => P.leads b a = false
  first : ∀ {a}, c.head? = some a → (s.link a).prev = none
  last : ∀ {a}, c.getLast? = some a → s.successor a = none

/-- The cost of the arc from a node, if it has been chosen. -/
def arcCost (P : Instance) (s : Chains) (a : Nat) : Int := (s.successor a).elim 0 (P.cost a)

/-- What the links of a state tell. -/
structure Coherent (P : Instance) (s : Chains) : Prop where
  size : s.size = P.size
  thread : ∀ {a}, a < P.size → ∃ c, a ∈ c ∧ Thread P s c
  before_eq : ∀ {a b}, a ∈ (s.link b).chain → (s.link a).before = (s.link b).before
  after_eq : ∀ {a b}, a ∈ (s.link b).chain → (s.link a).after = (s.link b).after
  converse : ∀ {a b}, a ∈ (s.link b).before ↔ b ∈ (s.link a).after
  apart : ∀ {a b}, a ∈ (s.link b).before → a ∉ (s.link b).chain
  trans : ∀ {a b c}, a ∈ (s.link b).before → b ∈ (s.link c).before → a ∈ (s.link c).before
  leads : ∀ {a b}, a < P.size → b < P.size → P.leads a b = true → a ∉ (s.link b).chain →
    a ∈ (s.link b).before
  prev_iff : ∀ {a b}, (s.link b).prev = some a ↔ s.successor a = some b
  start : (s.link P.start).prev = none
  targets : ∀ {a}, a ∈ s.targets ↔ a < P.size ∧ a ≠ P.start ∧ (s.link a).prev = none
  targets_nodup : s.targets.Nodup
  cost : s.cost = (P.nodes.map (s.arcCost P)).sum

namespace Coherent

variable (h : s.Coherent P)

include h

theorem mem_chain_self (ha : a < P.size) : a ∈ (s.link a).chain := by
  obtain ⟨c, hc, hthread⟩ := h.thread ha
  exact (hthread.chain hc).mpr hc

/-- The nodes of a chain have it in common. -/
theorem chain_eq (hab : a ∈ (s.link b).chain) : (s.link a).chain = (s.link b).chain := by
  obtain ⟨c, hb, hthread⟩ := h.thread (h.size ▸ lt_of_mem_chain hab)
  have ha := (hthread.chain hb).mp hab
  exact NodeSet.ext fun x => (hthread.chain ha).trans (hthread.chain hb).symm

theorem mem_chain_comm : a ∈ (s.link b).chain ↔ b ∈ (s.link a).chain := by
  suffices himp : ∀ {a b}, a ∈ (s.link b).chain → b ∈ (s.link a).chain from ⟨himp, himp⟩
  intro a b hab
  rw [h.chain_eq hab]
  exact h.mem_chain_self (h.size ▸ lt_of_mem_chain hab)

theorem lt_of_mem_chain (hab : a ∈ (s.link b).chain) : a < P.size :=
  h.size ▸ Chains.lt_of_mem_chain (h.mem_chain_comm.mp hab)

theorem lt_of_mem_before (hab : a ∈ (s.link b).before) : a < P.size :=
  h.size ▸ lt_of_mem_after (h.converse.mp hab)

theorem not_before_self : a ∉ (s.link a).before := fun ha =>
  h.apart ha (h.mem_chain_self (h.lt_of_mem_before ha))

/-- The order is one of threads: on the right, … -/
theorem before_of_chain (hab : a ∈ (s.link b).before) (hbc : b ∈ (s.link x).chain) :
    a ∈ (s.link x).before := h.before_eq hbc ▸ hab

/-- … and on the left. -/
theorem chain_before (hab : a ∈ (s.link b).chain) (hbc : b ∈ (s.link x).before) :
    a ∈ (s.link x).before := by
  rw [h.converse] at hbc ⊢
  rwa [h.after_eq hab]

theorem lt_of_mem_targets (ha : a ∈ s.targets) : a < P.size := (h.targets.mp ha).1

theorem lt_of_successor (hab : s.successor a = some b) : a < P.size :=
  h.size ▸ Chains.lt_of_successor hab

theorem successor_lt (hab : s.successor a = some b) : b < P.size :=
  h.size ▸ lt_of_link fun hu => by
    have := h.prev_iff.mpr hab
    rw [hu] at this
    cases this

end Coherent

namespace Thread

variable (h : Thread P s c)

include h

/-- A node without successor is the last of its thread. -/
theorem getLast_eq (ha : a ∈ c) (hfree : s.successor a = none) : c.getLast? = some a := by
  obtain ⟨l, r, rfl⟩ := List.append_of_mem ha
  cases r with
  | nil => exact List.getLast?_concat
  | cons b r =>
    have hab := (List.isChain_cons_cons.mp h.linked.right_of_append).1
    rw [hfree] at hab
    cases hab

/-- A node that is no successor is the first of its thread. -/
theorem head_eq (hs : s.Coherent P) (ha : a ∈ c) (hfree : (s.link a).prev = none) :
    c.head? = some a := by
  obtain ⟨l, r, rfl⟩ := List.append_of_mem ha
  obtain rfl | ⟨l, b, rfl⟩ := l.eq_nil_or_concat'
  · rfl
  · rw [List.append_assoc, List.singleton_append] at h
    have hba := (List.isChain_cons_cons.mp h.linked.right_of_append).1
    rw [hs.prev_iff.mpr hba] at hfree
    cases hfree

end Thread

/-! ## What may be joined -/

/-- `x` lies on one of the chains of the two nodes. -/
def OnJoin (s : Chains) (o t x : Nat) : Prop := x ∈ (s.link o).chain ∨ x ∈ (s.link t).chain

/-- `x` lies on one of the chains of the two nodes, or before one of them. -/
def UpTo (s : Chains) (o t x : Nat) : Prop :=
  OnJoin s o t x ∨ x ∈ (s.link o).before ∨ x ∈ (s.link t).before

/-- `x` lies on one of the chains of the two nodes, or after one of them. -/
def From (s : Chains) (o t x : Nat) : Prop :=
  OnJoin s o t x ∨ x ∈ (s.link o).after ∨ x ∈ (s.link t).after

instance : Decidable (OnJoin s o t x) := inferInstanceAs (Decidable (_ ∨ _))

/-- What joining two chains does to the link of a node. -/
theorem link_join (hb : b < s.size) :
    ({ s with links := s.join o t } : Chains).link b = {
      chain := if OnJoin s o t b then (s.link o).chain.union (s.link t).chain else (s.link b).chain
      before := if OnJoin s o t b then
          ((s.link o).before.union (s.link t).before).diff ((s.link o).chain.union (s.link t).chain)
        else (s.link b).before
      after := if OnJoin s o t b then
          ((s.link o).after.union (s.link t).after).diff ((s.link o).chain.union (s.link t).chain)
        else (s.link b).after
      prev := if b = t then some o else (s.link b).prev
      next := if b = o then some t else (s.link b).next } := by
  have hmem : ∀ b, b ∈ (s.link o).chain.union (s.link t).chain ↔ OnJoin s o t b := fun b =>
    NodeSet.mem_union
  rw [join, link_mapIdx hb]
  simp only [hmem]
  split_ifs <;> rfl

/-- **What `mayJoin` tests**: the arc closes no cycle, and no node, `t` included, is known both to
come before one of the chains and to come after the other. -/
theorem mayJoin_iff (h : s.Coherent P) (ho : o < P.size) :
    mayJoin (s.link o) (s.link t) = true ↔ o ∉ (s.link t).chain ∧ t ∉ (s.link o).before ∧
      (∀ x, x ∈ (s.link o).before → x ∉ (s.link t).after) ∧
      ∀ x, x ∈ (s.link o).after → x ∉ (s.link t).before := by
  have hmeets : ∀ u v : NodeSet, (!u.meets v) = true ↔ ∀ x, x ∈ u → x ∉ v := fun u v => by
    rw [Bool.not_eq_true', Bool.eq_false_iff, Ne, NodeSet.meets_iff]
    push Not
    rfl
  simp only [mayJoin, Bool.and_eq_true, hmeets, bne_iff_ne, and_assoc]
  constructor
  · rintro ⟨hchain, hself, -, hbefore, hafter⟩
    exact ⟨fun hot => hchain (h.chain_eq hot),
      fun hto => hself o (h.mem_chain_self ho) (h.converse.mp hto), hbefore, hafter⟩
  · rintro ⟨hchain, hself, hbefore, hafter⟩
    refine ⟨fun he => hchain (he ▸ h.mem_chain_self ho), fun x hx hxt => ?_, fun x hx hxt => ?_,
      hbefore, hafter⟩
    · exact hself (h.before_of_chain (h.converse.mpr hxt) hx)
    · exact hself (h.chain_before (h.mem_chain_comm.mp hxt) hx)

/-- `t` is a candidate for the successor of `o`, which has none. -/
structure Joins (P : Instance) (s : Chains) (o t : Nat) : Prop where
  coherent : s.Coherent P
  lt : o < P.size
  free : s.successor o = none
  candidate : t ∈ s.candidates o

namespace Joins

variable (h : Joins P s o t)

include h

theorem mem_targets : t ∈ s.targets := List.mem_of_mem_filter h.candidate

theorem target_lt : t < P.size := h.coherent.lt_of_mem_targets h.mem_targets

theorem mayJoin : o ∉ (s.link t).chain ∧ t ∉ (s.link o).before ∧
    (∀ x, x ∈ (s.link o).before → x ∉ (s.link t).after) ∧
    ∀ x, x ∈ (s.link o).after → x ∉ (s.link t).before :=
  (mayJoin_iff h.coherent h.lt).mp (List.mem_filter.mp h.candidate).2

theorem ne : o ≠ t := fun he =>
  h.mayJoin.1 (he ▸ h.coherent.mem_chain_self h.lt)

theorem onJoin_origin : OnJoin s o t o := .inl (h.coherent.mem_chain_self h.lt)

theorem onJoin_target : OnJoin s o t t := .inr (h.coherent.mem_chain_self h.target_lt)

theorem onJoin_congr (hxy : x ∈ (s.link y).chain) : OnJoin s o t x ↔ OnJoin s o t y := by
  rw [OnJoin, OnJoin, h.coherent.mem_chain_comm (b := o), h.coherent.mem_chain_comm (b := t),
    h.coherent.chain_eq hxy, h.coherent.mem_chain_comm (b := y), h.coherent.mem_chain_comm (b := y)]

theorem upTo_congr (hxy : x ∈ (s.link y).chain) : UpTo s o t x ↔ UpTo s o t y := by
  rw [UpTo, UpTo, h.onJoin_congr hxy, h.coherent.converse, h.coherent.converse,
    h.coherent.after_eq hxy, ← h.coherent.converse, ← h.coherent.converse]

theorem from_congr (hxy : x ∈ (s.link y).chain) : From s o t x ↔ From s o t y := by
  rw [From, From, h.onJoin_congr hxy, ← h.coherent.converse, ← h.coherent.converse,
    h.coherent.before_eq hxy, h.coherent.converse, h.coherent.converse]

/-- Whatever comes before one of the chains is up to the join, … -/
theorem upTo_of_before (hxy : x ∈ (s.link y).before) (hy : UpTo s o t y) : UpTo s o t x := by
  obtain (hy | hy) | hy | hy := hy
  · exact .inr (.inl (h.coherent.before_of_chain hxy hy))
  · exact .inr (.inr (h.coherent.before_of_chain hxy hy))
  · exact .inr (.inl (h.coherent.trans hxy hy))
  · exact .inr (.inr (h.coherent.trans hxy hy))

/-- … whatever comes after one is from the join, … -/
theorem from_of_before (hxy : x ∈ (s.link y).before) (hx : From s o t x) : From s o t y := by
  have hchain : ∀ {z}, x ∈ (s.link z).chain → y ∈ (s.link z).after := fun hz =>
    h.coherent.converse.mp (h.coherent.chain_before (h.coherent.mem_chain_comm.mp hz) hxy)
  obtain (hx | hx) | hx | hx := hx
  · exact .inr (.inl (hchain hx))
  · exact .inr (.inr (hchain hx))
  · exact .inr (.inl (h.coherent.converse.mp (h.coherent.trans (h.coherent.converse.mpr hx) hxy)))
  · exact .inr (.inr (h.coherent.converse.mp (h.coherent.trans (h.coherent.converse.mpr hx) hxy)))

/-- … and only the chains themselves are both. -/
theorem onJoin_of_both (hu : UpTo s o t x) (hf : From s o t x) : OnJoin s o t x := by
  obtain ⟨-, -, hbefore, hafter⟩ := h.mayJoin
  obtain hu | hu | hu := hu
  · exact hu
  · obtain hf | hf | hf := hf
    · exact hf
    · exact absurd (h.coherent.trans (h.coherent.converse.mpr hf) hu) h.coherent.not_before_self
    · exact absurd hf (hbefore x hu)
  · obtain hf | hf | hf := hf
    · exact hf
    · exact absurd hu (hafter x hf)
    · exact absurd (h.coherent.trans (h.coherent.converse.mpr hf) hu) h.coherent.not_before_self

/-! ### The links afterwards -/

/-- The join on its own, before it is propagated. -/
theorem link_join_origin : ({ s with links := s.join o t } : Chains).link o = {
    chain := (s.link o).chain.union (s.link t).chain
    before :=
      ((s.link o).before.union (s.link t).before).diff ((s.link o).chain.union (s.link t).chain)
    after :=
      ((s.link o).after.union (s.link t).after).diff ((s.link o).chain.union (s.link t).chain)
    prev := (s.link o).prev
    next := some t } := by
  rw [link_join (h.coherent.size.symm ▸ h.lt), if_pos h.onJoin_origin, if_pos h.onJoin_origin,
    if_pos h.onJoin_origin, if_neg h.ne, if_pos rfl]

theorem link_tie (hb : b < s.size) : (s.tie P relaxation o t).link b =
    let m := ({ s with links := s.join o t } : Chains).link b
    let l := ({ s with links := s.join o t } : Chains).link o
    { m with
      before := if b ∈ l.after then ((l.before.union l.chain).union m.before).diff m.chain
        else m.before
      after := if b ∈ l.before then ((l.after.union l.chain).union m.after).diff m.chain
        else m.after } := by
  have hsize : ({ s with links := s.join o t } : Chains).size = s.size := by simp [size, join]
  refine link_propagate (s := { s with links := s.join o t }) (a := o) ?_ (hsize.symm ▸ hb)
  rw [h.link_join_origin, NodeSet.mem_diff, NodeSet.mem_union (s := (s.link o).chain)]
  exact fun ho => ho.2 h.onJoin_origin

theorem prev_tie : ((s.tie P relaxation o t).link b).prev =
    if b = t then some o else (s.link b).prev := by
  obtain hb | hb := Nat.lt_or_ge b s.size
  · rw [h.link_tie hb, link_join hb]
  · have hbt : b ≠ t := by
      have := h.target_lt
      rw [h.coherent.size] at hb
      omega
    rw [if_neg hbt, link_of_le hb, link_of_le (tie_size.symm ▸ hb)]

theorem successor_tie : (s.tie P relaxation o t).successor b =
    if b = o then some t else s.successor b := by
  rw [successor, successor]
  obtain hb | hb := Nat.lt_or_ge b s.size
  · rw [h.link_tie hb, link_join hb]
  · have hbo : b ≠ o := by
      have := h.lt
      rw [h.coherent.size] at hb
      omega
    rw [if_neg hbo, link_of_le hb, link_of_le (tie_size.symm ▸ hb)]

theorem onJoin_lt (hx : OnJoin s o t x) : x < P.size := by
  obtain hx | hx := hx <;> exact h.coherent.lt_of_mem_chain hx

/-- **The chains afterwards**: the two are one, the others are as before. -/
theorem mem_chain_tie : x ∈ ((s.tie P relaxation o t).link y).chain ↔
    x ∈ (s.link y).chain ∨ (OnJoin s o t x ∧ OnJoin s o t y) := by
  obtain hy | hy := Nat.lt_or_ge y s.size
  · rw [h.link_tie hy, link_join hy]
    by_cases hj : OnJoin s o t y
    · simp only [if_pos hj, NodeSet.mem_union]
      refine ⟨fun hx => .inr ⟨hx, hj⟩, ?_⟩
      rintro (hx | hx)
      · exact (h.onJoin_congr hx).mpr hj
      · exact hx.1
    · simp [hj]
  · rw [link_of_le hy, link_of_le (tie_size.symm ▸ hy)]
    refine ⟨fun hx => absurd hx (NodeSet.not_mem_empty x), ?_⟩
    rintro (hx | ⟨-, hj⟩)
    · exact hx
    · have := h.onJoin_lt hj
      rw [h.coherent.size] at hy
      omega

/-- No chain but the join has nodes that are up to the join and from it. -/
theorem not_mem_chain (hx : UpTo s o t x) (hy : From s o t y)
    (hn : ¬(OnJoin s o t x ∧ OnJoin s o t y)) : x ∉ (s.link y).chain := by
  intro hxy
  have hjoin := h.onJoin_of_both hx ((h.from_congr hxy).mpr hy)
  exact hn ⟨hjoin, (h.onJoin_congr hxy).mp hjoin⟩

/-- **The order afterwards**: whatever is up to the join comes before whatever is from the join. -/
theorem mem_before_tie : x ∈ ((s.tie P relaxation o t).link y).before ↔
    ¬(OnJoin s o t x ∧ OnJoin s o t y) ∧
      (x ∈ (s.link y).before ∨ (UpTo s o t x ∧ From s o t y)) := by
  obtain hy | hy := Nat.lt_or_ge y s.size
  · have hup : x ∈ (s.link y).before → UpTo s o t y → UpTo s o t x := h.upTo_of_before
    have happart : x ∈ (s.link y).before → x ∉ (s.link y).chain := h.coherent.apart
    have hnot := h.not_mem_chain (x := x) (y := y)
    rw [h.link_tie hy, link_join hy, h.link_join_origin]
    unfold UpTo From OnJoin at *
    by_cases hj : y ∈ (s.link o).chain ∨ y ∈ (s.link t).chain
    · simp only [hj, if_true, NodeSet.mem_diff, NodeSet.mem_union, not_true, and_false, if_false]
      grind
    · simp only [hj, if_false, NodeSet.mem_diff, NodeSet.mem_union]
      split_ifs
      · simp only [NodeSet.mem_diff, NodeSet.mem_union]
        grind
      · grind
  · rw [link_of_le hy, link_of_le (tie_size.symm ▸ hy)]
    have hfrom : ¬From s o t y := by
      rintro (hf | hf | hf)
      · have := h.onJoin_lt hf
        rw [h.coherent.size] at hy
        omega
      · exact absurd (lt_of_mem_before (h.coherent.converse.mpr hf)) (by omega)
      · exact absurd (lt_of_mem_before (h.coherent.converse.mpr hf)) (by omega)
    exact ⟨fun hx => absurd hx (NodeSet.not_mem_empty x),
      fun hx => hx.2.elim id fun hx => absurd hx.2 hfrom⟩

/-- What comes after a node afterwards, by the same rule. -/
theorem mem_after_tie : y ∈ ((s.tie P relaxation o t).link x).after ↔
    ¬(OnJoin s o t x ∧ OnJoin s o t y) ∧
      (x ∈ (s.link y).before ∨ (UpTo s o t x ∧ From s o t y)) := by
  obtain hx | hx := Nat.lt_or_ge x s.size
  · have hfrom : x ∈ (s.link y).before → From s o t x → From s o t y := h.from_of_before
    have happart : x ∈ (s.link y).before → x ∉ (s.link y).chain := h.coherent.apart
    have hnot := h.not_mem_chain (x := x) (y := y)
    rw [h.coherent.mem_chain_comm] at happart hnot
    rw [h.link_tie hx, link_join hx, h.link_join_origin]
    rw [h.coherent.converse] at *
    unfold UpTo From OnJoin at *
    by_cases hj : x ∈ (s.link o).chain ∨ x ∈ (s.link t).chain
    · simp only [hj, if_true, NodeSet.mem_diff, NodeSet.mem_union, not_true, and_false, if_false]
      grind
    · simp only [hj, if_false, NodeSet.mem_diff, NodeSet.mem_union]
      split_ifs
      · simp only [NodeSet.mem_diff, NodeSet.mem_union]
        grind
      · grind
  · rw [link_of_le (tie_size.symm ▸ hx)]
    have hup : ¬UpTo s o t x := by
      rintro (hf | hf | hf)
      · have := h.onJoin_lt hf
        rw [h.coherent.size] at hx
        omega
      · have := h.coherent.lt_of_mem_before hf
        rw [h.coherent.size] at hx
        omega
      · have := h.coherent.lt_of_mem_before hf
        rw [h.coherent.size] at hx
        omega
    refine ⟨fun hy => absurd hy (NodeSet.not_mem_empty y),
      fun hy => hy.2.elim (fun hy => ?_) fun hy => absurd hy.1 hup⟩
    rw [h.coherent.converse, link_of_le hx] at hy
    exact hy

/-- What comes before the join is up to it, … -/
theorem mem_before_tie_of_onJoin (hy : OnJoin s o t y) :
    x ∈ ((s.tie P relaxation o t).link y).before ↔ UpTo s o t x ∧ ¬OnJoin s o t x := by
  rw [h.mem_before_tie]
  constructor
  · rintro ⟨hn, hx | hx⟩
    · exact ⟨h.upTo_of_before hx (.inl hy), fun hj => hn ⟨hj, hy⟩⟩
    · exact ⟨hx.1, fun hj => hn ⟨hj, hy⟩⟩
  · rintro ⟨hx, hn⟩
    exact ⟨fun hj => hn hj.1, .inr ⟨hx, .inl hy⟩⟩

/-- … and what comes after it is from it. -/
theorem mem_after_tie_of_onJoin (hx : OnJoin s o t x) :
    y ∈ ((s.tie P relaxation o t).link x).after ↔ From s o t y ∧ ¬OnJoin s o t y := by
  rw [h.mem_after_tie]
  constructor
  · rintro ⟨hn, hy | hy⟩
    · exact ⟨h.from_of_before hy (.inl hx), fun hj => hn ⟨hx, hj⟩⟩
    · exact ⟨hy.2, fun hj => hn ⟨hx, hj⟩⟩
  · rintro ⟨hy, hn⟩
    exact ⟨fun hj => hn hj.2, .inr ⟨.inl hx, hy⟩⟩

/-! ### Threads -/

/-- Chosen arcs are kept. -/
theorem successor_tie_of_some (hab : s.successor a = some b) :
    (s.tie P relaxation o t).successor a = some b := by
  rw [h.successor_tie, if_neg fun ha => ?_]
  · exact hab
  · rw [ha, h.free] at hab
    cases hab

/-- The other threads stay as they are. -/
theorem thread_of_not_onJoin (hc : Thread P s c) (hn : ∀ a ∈ c, ¬OnJoin s o t a) :
    Thread P (s.tie P relaxation o t) c where
  linked := hc.linked.imp fun _ _ => h.successor_tie_of_some
  nodup := hc.nodup
  chain {a} ha {b} := by
    rw [h.mem_chain_tie, hc.chain ha]
    exact or_iff_left fun hj => hn a ha hj.2
  ordered := hc.ordered
  first {a} ha := by
    have hat : a ≠ t := fun hat => hn a (List.mem_of_head? ha) (hat ▸ h.onJoin_target)
    rw [h.prev_tie, if_neg hat]
    exact hc.first ha
  last {a} ha := by
    have hao : a ≠ o := fun hao => hn a (List.mem_of_getLast? ha) (hao ▸ h.onJoin_origin)
    rw [h.successor_tie, if_neg hao]
    exact hc.last ha

theorem not_mem_of_mem {c₁ c₂ : List Nat} (h₁ : Thread P s c₁) (h₂ : Thread P s c₂) (ho : o ∈ c₁)
    (ht : t ∈ c₂) (ha : a ∈ c₁) : a ∉ c₂ := fun ha' =>
  h.mayJoin.1 ((h₂.chain ht).mpr ((h₂.chain ha').mp
    (h.coherent.mem_chain_comm.mp ((h₁.chain ho).mpr ha))))

/-- Otherwise `t` would be known to come before `o`. -/
theorem not_leads_of_mem {c₁ c₂ : List Nat} (h₁ : Thread P s c₁) (h₂ : Thread P s c₂) (ho : o ∈ c₁)
    (ht : t ∈ c₂) (ha : a ∈ c₁) (hb : b ∈ c₂) : P.leads b a = false := by
  refine Bool.eq_false_iff.mpr fun hba => h.mayJoin.2.1 ?_
  have hao := (h₁.chain ho).mpr ha
  have hbt := (h₂.chain ht).mpr hb
  have hnot : b ∉ (s.link a).chain := fun hm =>
    h.not_mem_of_mem h₁ h₂ ho ht ((h₁.chain ha).mp hm) hb
  have hlead := h.coherent.leads (h.coherent.lt_of_mem_chain hbt)
    (h.coherent.lt_of_mem_chain hao) hba hnot
  exact h.coherent.chain_before (h.coherent.mem_chain_comm.mp hbt)
    (h.coherent.before_of_chain hlead hao)

/-- **The two threads become one.** -/
theorem thread_append {c₁ c₂ : List Nat} (h₁ : Thread P s c₁) (h₂ : Thread P s c₂) (ho : o ∈ c₁)
    (ht : t ∈ c₂) : Thread P (s.tie P relaxation o t) (c₁ ++ c₂) := by
  have hlast := h₁.getLast_eq ho h.free
  have hfirst := h₂.head_eq h.coherent ht (h.coherent.targets.mp h.mem_targets).2.2
  have hdisjoint : ∀ a ∈ c₁, a ∉ c₂ := fun a => h.not_mem_of_mem h₁ h₂ ho ht
  have hjoin : ∀ a, OnJoin s o t a ↔ a ∈ c₁ ++ c₂ := fun a => by
    rw [OnJoin, h₁.chain ho, h₂.chain ht, List.mem_append]
  constructor
  · refine List.isChain_append.mpr ⟨h₁.linked.imp fun _ _ => h.successor_tie_of_some,
      h₂.linked.imp fun _ _ => h.successor_tie_of_some, fun a ha b hb => ?_⟩
    rw [hlast, Option.mem_some_iff] at ha
    rw [hfirst, Option.mem_some_iff] at hb
    rw [h.successor_tie, if_pos ha.symm, hb]
  · exact List.nodup_append.mpr
      ⟨h₁.nodup, h₂.nodup, fun a ha b hb hab => hdisjoint a ha (hab ▸ hb)⟩
  · intro a ha b
    rw [h.mem_chain_tie, ← hjoin b]
    refine ⟨?_, fun hb => .inr ⟨hb, (hjoin a).mpr ha⟩⟩
    rintro (hb | hb)
    · exact (h.onJoin_congr hb).mpr ((hjoin a).mpr ha)
    · exact hb.1
  · exact List.pairwise_append.mpr
      ⟨h₁.ordered, h₂.ordered, fun a ha b hb => h.not_leads_of_mem h₁ h₂ ho ht ha hb⟩
  · intro a ha
    have hne : c₁ ≠ [] := List.ne_nil_of_mem ho
    rw [List.head?_append_of_ne_nil c₁ hne] at ha
    rw [h.prev_tie, if_neg fun hat => ?_]
    · exact h₁.first ha
    · exact hdisjoint a (List.mem_of_head? ha) (hat ▸ ht)
  · intro a ha
    have hne : c₂ ≠ [] := List.ne_nil_of_mem ht
    rw [List.getLast?_append_of_ne_nil c₁ hne] at ha
    rw [h.successor_tie, if_neg fun hao => ?_]
    · exact h₂.last ha
    · exact hdisjoint a (hao ▸ ho) (List.mem_of_getLast? ha)

theorem exists_thread (ha : a < P.size) : ∃ c, a ∈ c ∧ Thread P (s.tie P relaxation o t) c := by
  by_cases hj : OnJoin s o t a
  · obtain ⟨c₁, ho, h₁⟩ := h.coherent.thread h.lt
    obtain ⟨c₂, ht, h₂⟩ := h.coherent.thread h.target_lt
    refine ⟨c₁ ++ c₂, ?_, h.thread_append h₁ h₂ ho ht⟩
    rw [List.mem_append, ← h₁.chain ho, ← h₂.chain ht]
    exact hj
  · obtain ⟨c, hac, hc⟩ := h.coherent.thread ha
    exact ⟨c, hac, h.thread_of_not_onJoin hc fun b hb hjb =>
      hj ((h.onJoin_congr ((hc.chain hac).mpr hb)).mp hjb)⟩

/-! ### The state afterwards -/

theorem trans_tie (hxy : x ∈ ((s.tie P relaxation o t).link y).before)
    (hyz : y ∈ ((s.tie P relaxation o t).link z).before) :
    x ∈ ((s.tie P relaxation o t).link z).before := by
  rw [h.mem_before_tie] at hxy hyz ⊢
  obtain ⟨hnxy, hxy⟩ := hxy
  obtain ⟨hnyz, hyz⟩ := hyz
  -- what lies between two nodes of the join lies on it
  have hbetween : UpTo s o t y → From s o t y → OnJoin s o t y := h.onJoin_of_both
  have hup : UpTo s o t y → UpTo s o t x := fun hy =>
    hxy.elim (fun hxy => h.upTo_of_before hxy hy) And.left
  have hfrom : From s o t y → From s o t z := fun hy =>
    hyz.elim (fun hyz => h.from_of_before hyz hy) And.right
  have hyx : OnJoin s o t x → From s o t y := fun hx =>
    hxy.elim (fun hxy => h.from_of_before hxy (.inl hx)) And.right
  have hyz' : OnJoin s o t z → UpTo s o t y := fun hz =>
    hyz.elim (fun hyz => h.upTo_of_before hyz (.inl hz)) And.left
  constructor
  · rintro ⟨hx, hz⟩
    exact hnxy ⟨hx, hbetween (hyz' hz) (hyx hx)⟩
  · obtain hxy | ⟨hx, hy⟩ := hxy
    · obtain hyz | ⟨hy, hz⟩ := hyz
      · exact .inl (h.coherent.trans hxy hyz)
      · exact .inr ⟨hup hy, hz⟩
    · exact .inr ⟨hx, hfrom hy⟩

theorem arcCost_sum_tie : (P.nodes.map ((s.tie P relaxation o t).arcCost P)).sum =
    (P.nodes.map (s.arcCost P)).sum + P.cost o t := by
  have ho : o ∈ P.nodes := List.mem_range.mpr h.lt
  have hrest : (P.nodes.erase o).map ((s.tie P relaxation o t).arcCost P) =
      (P.nodes.erase o).map (s.arcCost P) := by
    refine List.map_congr_left fun a ha => ?_
    rw [arcCost, arcCost, h.successor_tie, if_neg (List.nodup_range.mem_erase_iff.mp ha).1]
  rw [← List.sum_map_erase _ ho, ← List.sum_map_erase (s.arcCost P) ho, hrest, arcCost, arcCost,
    h.successor_tie, if_pos rfl, h.free]
  simp [Int.add_comm]

/-- **A choice among the candidates keeps the state coherent.** -/
theorem coherent_tie : (s.tie P relaxation o t).Coherent P := by
  have hs := h.coherent
  have ht := hs.targets.mp h.mem_targets
  constructor
  · rw [tie_size, hs.size]
  · exact h.exists_thread
  · intro a b hab
    refine NodeSet.ext fun x => ?_
    obtain hab | ⟨ha, hb⟩ := h.mem_chain_tie.mp hab
    · rw [h.mem_before_tie, h.mem_before_tie, h.onJoin_congr hab, hs.before_eq hab,
        h.from_congr hab]
    · rw [h.mem_before_tie_of_onJoin ha, h.mem_before_tie_of_onJoin hb]
  · intro a b hab
    refine NodeSet.ext fun x => ?_
    obtain hab | ⟨ha, hb⟩ := h.mem_chain_tie.mp hab
    · rw [h.mem_after_tie, h.mem_after_tie, h.onJoin_congr hab, hs.converse, hs.after_eq hab,
        ← hs.converse, h.upTo_congr hab]
    · rw [h.mem_after_tie_of_onJoin ha, h.mem_after_tie_of_onJoin hb]
  · exact h.mem_before_tie.trans h.mem_after_tie.symm
  · intro a b hab hchain
    obtain ⟨hn, hab⟩ := h.mem_before_tie.mp hab
    obtain hchain | hchain := h.mem_chain_tie.mp hchain
    · obtain hab | hab := hab
      · exact hs.apart hab hchain
      · exact h.not_mem_chain hab.1 hab.2 hn hchain
    · exact hn hchain
  · exact h.trans_tie
  · intro a b ha hb hlead hn
    rw [h.mem_chain_tie, not_or] at hn
    exact h.mem_before_tie.mpr ⟨hn.2, .inl (hs.leads ha hb hlead hn.1)⟩
  · intro a b
    rw [h.prev_tie, h.successor_tie]
    split_ifs with hbt hao hao
    · rw [hbt, hao]
      simp
    · rw [hbt, ← hs.prev_iff, ht.2.2]
      simpa using fun h => hao h.symm
    · rw [hao, hs.prev_iff, h.free]
      simpa using fun h => hbt h.symm
    · exact hs.prev_iff
  · rw [h.prev_tie, if_neg ht.2.1.symm]
    exact hs.start
  · intro a
    rw [tie_targets, List.mem_filter, hs.targets, h.prev_tie, bne_iff_ne]
    split_ifs with hat
    · simp [hat]
    · simp [hat]
  · exact hs.targets_nodup.filter _
  · rw [tie_cost, hs.cost, h.arcCost_sum_tie]

end Joins

/-! ## The root -/

theorem leads_iff : P.leads a b = true ↔
    a ≠ b ∧ (a = P.start ∨ b = P.finish ∨ P.deliveryOf a = some b) := by
  simp [Instance.leads, Instance.precedes, or_assoc]

/-- **What roles demand is a strict order.** -/
theorem leads_trans (hP : P.WellFormed) (hxy : P.leads x y = true) (hyz : P.leads y z = true) :
    P.leads x z = true := by
  have hends : ∀ {p d}, P.deliveryOf p = some d → d ≠ P.start ∧ d ≠ P.finish ∧ p ≠ P.finish ∧
      ∀ e, P.deliveryOf d ≠ some e := by
    intro p d hpd
    have hp := Instance.role_of_deliveryOf hpd
    have hd := hP.delivers hpd
    refine ⟨fun he => ?_, fun he => ?_, fun he => ?_, fun e he => ?_⟩
    · rw [hP.start_iff.mpr he] at hd
      cases hd
    · rw [hP.finish_iff.mpr he] at hd
      cases hd
    · rw [hP.finish_iff.mpr he] at hp
      cases hp
    · rw [Instance.role_of_deliveryOf he] at hd
      cases hd
  have hdepots := hP.start_ne_finish
  rw [leads_iff] at hxy hyz ⊢
  obtain ⟨hne, rfl | rfl | hxy⟩ := hxy
  · -- nothing leads to the start
    refine ⟨?_, .inl rfl⟩
    rintro rfl
    obtain ⟨hne', h | h | h⟩ := hyz
    · exact hne h.symm
    · exact hdepots h
    · exact (hends h).1 rfl
  · -- the finish leads nowhere
    obtain ⟨hne', h | h | h⟩ := hyz
    · exact absurd h hdepots.symm
    · exact absurd h.symm hne'
    · exact absurd rfl (hends h).2.2.1
  · obtain ⟨hne', h | h | h⟩ := hyz
    · exact absurd h (hends hxy).1
    · exact ⟨h ▸ (hends hxy).2.2.1, .inr (.inl h)⟩
    · exact absurd h ((hends hxy).2.2.2 z)

theorem link_bare (ha : a < P.size) : (bare P relaxation).link a = {
    chain := NodeSet.singleton a
    before := NodeSet.ofPred P.size fun b => P.leads b a
    after := NodeSet.ofPred P.size fun b => P.leads a b
    prev := none
    next := none } := by
  have hlt : a < P.nodes.length := by rwa [Instance.nodes, List.length_range]
  simp [link, bare, Array.getD, Instance.nodes, ha]

theorem size_bare : (bare P relaxation).size = P.size := by
  simp [bare, size, Instance.nodes]

theorem link_bare_of_le (ha : P.size ≤ a) : (bare P relaxation).link a = Link.unknown :=
  link_of_le (size_bare ▸ ha)

theorem mem_before_bare : a ∈ ((bare P relaxation).link b).before ↔
    a < P.size ∧ b < P.size ∧ P.leads a b = true := by
  obtain hb | hb := Nat.lt_or_ge b P.size
  · rw [link_bare hb, NodeSet.mem_ofPred]
    exact and_congr_right fun _ => (and_iff_right hb).symm
  · rw [link_bare_of_le hb]
    exact ⟨fun h => absurd h (NodeSet.not_mem_empty a), fun h => absurd h.2.1 (by omega)⟩

theorem mem_after_bare : b ∈ ((bare P relaxation).link a).after ↔
    a < P.size ∧ b < P.size ∧ P.leads a b = true := by
  obtain ha | ha := Nat.lt_or_ge a P.size
  · rw [link_bare ha, NodeSet.mem_ofPred]
    exact (and_iff_right ha).symm
  · rw [link_bare_of_le ha]
    exact ⟨fun h => absurd h (NodeSet.not_mem_empty b), fun h => absurd h.1 (by omega)⟩

theorem mem_chain_bare : a ∈ ((bare P relaxation).link b).chain ↔ b < P.size ∧ a = b := by
  obtain hb | hb := Nat.lt_or_ge b P.size
  · rw [link_bare hb, NodeSet.mem_singleton]
    exact (and_iff_right hb).symm
  · rw [link_bare_of_le hb]
    exact ⟨fun h => absurd h (NodeSet.not_mem_empty a), fun h => absurd h.1 (by omega)⟩

@[simp] theorem prev_bare : ((bare P relaxation).link a).prev = none := by
  obtain ha | ha := Nat.lt_or_ge a P.size
  · rw [link_bare ha]
  · rw [link_bare_of_le ha]
    rfl

@[simp] theorem successor_bare : (bare P relaxation).successor a = none := by
  rw [successor]
  obtain ha | ha := Nat.lt_or_ge a P.size
  · rw [link_bare ha]
  · rw [link_bare_of_le ha]
    rfl

/-- **The root is coherent.** -/
theorem coherent_bare (hP : P.WellFormed) (relaxation : Option Assignment) :
    (bare P relaxation).Coherent P where
  size := size_bare
  thread {a} ha := by
    refine ⟨[a], List.mem_singleton.mpr rfl, ?_⟩
    constructor
    · exact List.isChain_singleton a
    · exact List.nodup_singleton a
    · intro b hb x
      rw [List.mem_singleton] at hb
      rw [hb, mem_chain_bare, List.mem_singleton]
      exact and_iff_right ha
    · exact List.pairwise_singleton _ a
    · exact fun _ => prev_bare
    · exact fun _ => successor_bare
  before_eq hab := by rw [(mem_chain_bare.mp hab).2]
  after_eq hab := by rw [(mem_chain_bare.mp hab).2]
  converse := mem_before_bare.trans mem_after_bare.symm
  apart hab hchain := (leads_iff.mp (mem_before_bare.mp hab).2.2).1 (mem_chain_bare.mp hchain).2
  trans hab hbc := by
    rw [mem_before_bare] at hab hbc ⊢
    exact ⟨hab.1, hbc.2.1, leads_trans hP hab.2.2 hbc.2.2⟩
  leads ha hb hlead _ := mem_before_bare.mpr ⟨ha, hb, hlead⟩
  prev_iff {a b} := by
    rw [prev_bare, successor_bare]
    exact ⟨fun h => (by cases h), fun h => (by cases h)⟩
  start := prev_bare
  targets {a} := by
    rw [prev_bare, bare, List.mem_filter, Instance.nodes, List.mem_range, bne_iff_ne]
    simp
  targets_nodup := List.nodup_range.filter _
  cost := by
    have hzero : arcCost P (bare P relaxation) = fun _ => 0 :=
      funext fun a => by rw [arcCost, successor_bare]; rfl
    rw [hzero]
    simp [bare]

end Fathom.Routing.Chains
