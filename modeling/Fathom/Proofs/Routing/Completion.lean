import Fathom.Proofs.Routing.Joining

/-!
# Routes that complete a choice of successors

A route *keeps* the successors of a state if it has all the arcs chosen so far. What a state knows
is then true of the route: whatever is known to come before a node does so (`Sound`), since the
nodes of a thread follow each other in the route without a gap. Conversely, every coherent state is
kept by some route (`exists_route`): as long as the thread of the start is not the only one, one of
the other threads has nothing before it but that thread, and may be joined to it.

Both together make `Chains.candidates` exact.

Results:
* `Sound.tie`: a choice among the candidates keeps the knowledge true;
* `exists_route`: a coherent state can be completed;
* `mem_candidates_iff`: the candidates of a node are its successors in the routes that keep the
  state.
-/

namespace Fathom.Routing

/-! ## Stretches of a route -/

/-- The nodes of a stretch are at successive positions. -/
theorem idxOf_append {l m r : List Nat} {y i : Nat} (hR : (l ++ (m ++ r)).Nodup)
    (hy : m[i]? = some y) : (l ++ (m ++ r)).idxOf y = l.length + i := by
  refine idxOf_of_getElem? hR ?_
  rw [List.getElem?_append_right (Nat.le_add_right ..), Nat.add_sub_cancel_left,
    List.getElem?_append_left (List.getElem?_eq_some_iff.mp hy).1, hy]

/-- **A stretch has no gap**: what stands between two of its nodes belongs to it. -/
theorem mem_of_between {R c : List Nat} {a b x : Nat} (hR : R.Nodup) (hc : c <:+: R) (ha : a ∈ c)
    (hb : b ∈ c) (hx : x ∈ R) (hax : R.idxOf a ≤ R.idxOf x) (hxb : R.idxOf x ≤ R.idxOf b) :
    x ∈ c := by
  obtain ⟨l, r, rfl⟩ := hc
  rw [List.append_assoc] at hR hx hax hxb
  obtain ⟨i, hi⟩ := List.mem_iff_getElem?.mp ha
  obtain ⟨j, hj⟩ := List.mem_iff_getElem?.mp hb
  have hlt := (List.getElem?_eq_some_iff.mp hj).1
  rw [idxOf_append hR hi] at hax
  rw [idxOf_append hR hj] at hxb
  have hget := List.getElem?_idxOf hx
  rw [List.getElem?_append_right (by omega), List.getElem?_append_left (by omega)] at hget
  exact List.mem_of_getElem? hget

/-- A strict order has a least element among finitely many. -/
theorem exists_least {α : Type} {r : α → α → Prop} (hirrefl : ∀ a, ¬r a a)
    (htrans : ∀ {a b c}, r a b → r b c → r a c) {l : List α} (hl : l ≠ []) :
    ∃ m ∈ l, ∀ a ∈ l, ¬r a m := by
  induction l with
  | nil => exact absurd rfl hl
  | cons a l ih =>
    by_cases hl : l = []
    · exact ⟨a, List.mem_cons_self, by simpa [hl] using hirrefl a⟩
    · obtain ⟨m, hm, hleast⟩ := ih hl
      by_cases ham : r a m
      · refine ⟨a, List.mem_cons_self, List.forall_mem_cons.mpr ⟨hirrefl a, fun b hb hba => ?_⟩⟩
        exact hleast b hb (htrans hba ham)
      · exact ⟨m, List.mem_cons_of_mem _ hm, List.forall_mem_cons.mpr ⟨ham, hleast⟩⟩

namespace Chains

variable {P : Instance} {s : Chains} {a b o t x y : Nat} {c R : List Nat}
  {relaxation : Option Assignment}

/-- The list of nodes has all the arcs chosen so far. -/
def KeptBy (s : Chains) (R : List Nat) : Prop :=
  ∀ a b, s.successor a = some b → (a, b) ∈ arcs R

/-- What is known of the order of the nodes holds in every route that keeps the state. -/
def Sound (P : Instance) (s : Chains) : Prop :=
  ∀ R, P.IsRoute R → s.KeptBy R → ∀ a b, a ∈ (s.link b).before → R.idxOf a < R.idxOf b

theorem keptBy_bare : (bare P relaxation).KeptBy R := fun a b hab => by
  rw [successor_bare] at hab
  cases hab

/-- A route keeps a choice if it keeps the state and has the arc. -/
theorem Joins.keptBy_tie (h : Joins P s o t) :
    (s.tie P relaxation o t).KeptBy R ↔ s.KeptBy R ∧ (o, t) ∈ arcs R := by
  constructor
  · exact fun hR => ⟨fun a b hab => hR a b (h.successor_tie_of_some hab),
      hR o t (by rw [h.successor_tie, if_pos rfl])⟩
  · rintro ⟨hs, hot⟩ a b hab
    rw [h.successor_tie] at hab
    split at hab
    · rename_i hao
      cases hab
      exact hao ▸ hot
    · exact hs a b hab

/-! ## What is known is true -/

theorem Thread.isInfix (h : Thread P s c) (hR : R.Nodup) (hs : s.KeptBy R)
    (hmem : ∀ a ∈ c, a ∈ R) : c <:+: R :=
  isInfix_of_isChain hR (h.linked.imp hs) hmem

/-- **Chains have no gap** in a route that keeps the state. -/
theorem Coherent.mem_chain_of_between (h : s.Coherent P) (hR : P.IsRoute R) (hs : s.KeptBy R)
    (hab : a ∈ (s.link b).chain) (hx : x < P.size) (hax : R.idxOf a ≤ R.idxOf x)
    (hxb : R.idxOf x ≤ R.idxOf b) : x ∈ (s.link b).chain := by
  obtain ⟨c, hb, hc⟩ := h.thread (h.size ▸ Chains.lt_of_mem_chain hab)
  refine (hc.chain hb).mpr (mem_of_between hR.nodup (hc.isInfix hR.nodup hs fun y hy => ?_)
    ((hc.chain hb).mp hab) hb (hR.mem_iff.mpr hx) hax hxb)
  exact hR.mem_iff.mpr (h.lt_of_mem_chain ((hc.chain hb).mpr hy))

theorem sound_bare : Sound P (bare P relaxation) := by
  intro R hR _ a b hab
  obtain ⟨ha, hb, hlead⟩ := mem_before_bare.mp hab
  obtain ⟨hne, rfl | rfl | hdelivery⟩ := leads_iff.mp hlead
  · rw [hR.idxOf_start]
    refine Nat.pos_of_ne_zero fun h0 => hne (hR.idxOf_inj ha ?_)
    rw [h0, hR.idxOf_start]
  · rw [hR.idxOf_finish]
    have hlast : R.idxOf a ≠ P.size - 1 := fun h0 =>
      hne (hR.idxOf_inj ha (h0.trans hR.idxOf_finish.symm))
    have := hR.idxOf_lt ha
    omega
  · exact hR.ordered a b hdelivery

/-- What a route passes between two nodes of the join lies on the join. -/
theorem Joins.onJoin_of_between (h : Joins P s o t) (hR : P.IsRoute R)
    (hkept : (s.tie P relaxation o t).KeptBy R) (ha : OnJoin s o t a) (hb : OnJoin s o t b)
    (hx : x < P.size) (hax : R.idxOf a ≤ R.idxOf x) (hxb : R.idxOf x ≤ R.idxOf b) :
    OnJoin s o t x := by
  have hcoherent : (s.tie P relaxation o t).Coherent P := h.coherent_tie
  have hab : a ∈ ((s.tie P relaxation o t).link b).chain := h.mem_chain_tie.mpr (.inr ⟨ha, hb⟩)
  obtain hxb | hxb := h.mem_chain_tie.mp
    (hcoherent.mem_chain_of_between hR hkept hab hx hax hxb)
  · exact (h.onJoin_congr hxb).mpr hb
  · exact hxb.1

/-- A node that is known to come before a node of the join comes before all of them. -/
theorem Sound.idxOf_lt_of_upTo (hs : Sound P s) (h : Joins P s o t) (hR : P.IsRoute R)
    (hkept : (s.tie P relaxation o t).KeptBy R) (hx : UpTo s o t x) (hn : ¬OnJoin s o t x)
    (ha : OnJoin s o t a) : R.idxOf x < R.idxOf a := by
  have hkept' := (h.keptBy_tie.mp hkept).1
  refine Nat.lt_of_not_le fun hax => ?_
  obtain hx | hx | hx := hx
  · exact hn hx
  · exact hn (h.onJoin_of_between hR hkept ha h.onJoin_origin (h.coherent.lt_of_mem_before hx) hax
      (Nat.le_of_lt (hs R hR hkept' _ _ hx)))
  · exact hn (h.onJoin_of_between hR hkept ha h.onJoin_target (h.coherent.lt_of_mem_before hx) hax
      (Nat.le_of_lt (hs R hR hkept' _ _ hx)))

/-- A node that is known to come after a node of the join comes after all of them. -/
theorem Sound.idxOf_lt_of_from (hs : Sound P s) (h : Joins P s o t) (hR : P.IsRoute R)
    (hkept : (s.tie P relaxation o t).KeptBy R) (hx : From s o t x) (hn : ¬OnJoin s o t x)
    (ha : OnJoin s o t a) : R.idxOf a < R.idxOf x := by
  have hkept' := (h.keptBy_tie.mp hkept).1
  refine Nat.lt_of_not_le fun hxa => ?_
  obtain hx | hx | hx := hx
  · exact hn hx
  · rw [← h.coherent.converse] at hx
    exact hn (h.onJoin_of_between hR hkept h.onJoin_origin ha
      (h.coherent.size ▸ lt_of_mem_before hx) (Nat.le_of_lt (hs R hR hkept' _ _ hx)) hxa)
  · rw [← h.coherent.converse] at hx
    exact hn (h.onJoin_of_between hR hkept h.onJoin_target ha
      (h.coherent.size ▸ lt_of_mem_before hx) (Nat.le_of_lt (hs R hR hkept' _ _ hx)) hxa)

/-- **A choice among the candidates keeps the knowledge true.** -/
theorem Sound.tie (hs : Sound P s) (h : Joins P s o t) : Sound P (s.tie P relaxation o t) := by
  intro R hR hkept x y hxy
  obtain ⟨hn, hxy | ⟨hx, hy⟩⟩ := h.mem_before_tie.mp hxy
  · exact hs R hR (h.keptBy_tie.mp hkept).1 _ _ hxy
  · by_cases hjx : OnJoin s o t x
    · exact hs.idxOf_lt_of_from h hR hkept hy (fun hjy => hn ⟨hjx, hjy⟩) hjx
    · by_cases hjy : OnJoin s o t y
      · exact hs.idxOf_lt_of_upTo h hR hkept hx hjx hjy
      · exact Nat.lt_trans (hs.idxOf_lt_of_upTo h hR hkept hx hjx h.onJoin_origin)
          (hs.idxOf_lt_of_from h hR hkept hy hjy h.onJoin_origin)

/-! ## Completing a state -/

/-- The arcs of a thread are those that have been chosen from its nodes. -/
theorem Thread.mem_arcs (h : Thread P s c) (ha : a ∈ c) (hab : s.successor a = some b) :
    (a, b) ∈ arcs c := by
  obtain ⟨l, r, rfl⟩ := List.append_of_mem ha
  cases r with
  | nil =>
    rw [h.last List.getLast?_concat] at hab
    cases hab
  | cons b' r =>
    have hab' := (List.isChain_cons_cons.mp h.linked.right_of_append).1
    rw [hab, Option.some.injEq] at hab'
    exact mem_arcs_iff_getElem?.mpr ⟨l.length, by simp, by simp [hab']⟩

/-- A node that has to be passed before another one of its thread is. -/
theorem Thread.idxOf_lt (h : Thread P s c) (ha : a ∈ c) (hb : b ∈ c) (hab : P.leads a b = true) :
    c.idxOf a < c.idxOf b := by
  refine Nat.lt_of_not_le fun hle => ?_
  have hne : c.idxOf b ≠ c.idxOf a := fun he =>
    (leads_iff.mp hab).1 ((List.idxOf_inj hb).mp he).symm
  have := List.pairwise_iff_getElem.mp h.ordered (c.idxOf b) (c.idxOf a)
    (List.idxOf_lt_length_iff.mpr hb) (List.idxOf_lt_length_iff.mpr ha) (by omega)
  rw [List.getElem_idxOf, List.getElem_idxOf, hab] at this
  cases this

/-- **A thread with all nodes is a route.** -/
theorem Thread.isRoute (h : Thread P s c) (hP : P.WellFormed) (hs : s.Coherent P)
    (hall : ∀ a, a ∈ c ↔ a < P.size) : P.IsRoute c where
  first := h.head_eq hs ((hall _).mpr hP.start_lt) hs.start
  last := by
    have hne : c ≠ [] := List.ne_nil_of_mem ((hall _).mpr hP.finish_lt)
    rw [List.getLast?_eq_some_getLast hne, Option.some.injEq]
    have hmem := List.getLast_mem hne
    -- otherwise the last node would have to be passed before the finish, which is passed earlier
    refine by_contra fun hlast => ?_
    have hlt := h.idxOf_lt hmem ((hall _).mpr hP.finish_lt)
      (leads_iff.mpr ⟨hlast, .inr (.inl rfl)⟩)
    rw [idxOf_of_getElem? h.nodup (i := c.length - 1)
      (by rw [← List.getLast?_eq_getElem?, List.getLast?_eq_some_getLast hne])] at hlt
    have := List.idxOf_lt_length_iff.mpr ((hall _).mpr hP.finish_lt)
    omega
  visits := (List.perm_ext_iff_of_nodup h.nodup List.nodup_range).mpr fun a => by
    rw [hall, List.mem_range]
  ordered a b hab := by
    have ha := hP.lt_of_role (Instance.role_of_deliveryOf hab)
    have hb := hP.lt_of_role (hP.delivers hab)
    refine h.idxOf_lt ((hall a).mpr ha) ((hall b).mpr hb) (leads_iff.mpr ⟨?_, .inr (.inr hab)⟩)
    rintro rfl
    have := hP.delivers hab
    rw [Instance.role_of_deliveryOf hab] at this
    cases this

/-- A thread begins with the start or with a node that may still become a successor. -/
theorem Coherent.exists_head (h : s.Coherent P) (ha : a < P.size) :
    ∃ x, x ∈ (s.link a).chain ∧ (x = P.start ∨ x ∈ s.targets) := by
  obtain ⟨c, hac, hc⟩ := h.thread ha
  obtain ⟨x, hx⟩ := Option.isSome_iff_exists.mp
    (List.isSome_head?.mpr (List.ne_nil_of_mem hac))
  have hxa := (hc.chain hac).mpr (List.mem_of_head? hx)
  refine ⟨x, hxa, or_iff_not_imp_left.mpr fun hne => ?_⟩
  exact h.targets.mpr ⟨h.lt_of_mem_chain hxa, hne, hc.first hx⟩

/-- **Without targets, all nodes are on the thread of the start.** -/
theorem Coherent.thread_all (h : s.Coherent P) (hP : P.WellFormed) (hdone : s.targets = []) :
    ∃ c, P.start ∈ c ∧ Thread P s c ∧ ∀ a, a ∈ c ↔ a < P.size := by
  obtain ⟨c, hstart, hc⟩ := h.thread hP.start_lt
  refine ⟨c, hstart, hc, fun a => ⟨fun ha => ?_, fun ha => ?_⟩⟩
  · exact h.lt_of_mem_chain ((hc.chain hstart).mpr ha)
  · obtain ⟨x, hx, rfl | hx'⟩ := h.exists_head ha
    · exact (hc.chain hstart).mp (h.mem_chain_comm.mp hx)
    · rw [hdone] at hx'
      cases hx'

/-- Nothing is known to come before the thread of the start. -/
theorem Coherent.not_mem_before_start (h : s.Coherent P) (hP : P.WellFormed) :
    x ∉ (s.link P.start).before := by
  intro hx
  have hchain : P.start ∉ (s.link x).chain := fun hm => h.apart hx (h.mem_chain_comm.mp hm)
  have hne : P.start ≠ x := fun he => hchain (he ▸ h.mem_chain_self hP.start_lt)
  have hlead := h.leads hP.start_lt (h.lt_of_mem_before hx) (leads_iff.mpr ⟨hne, .inl rfl⟩) hchain
  exact h.not_before_self (h.trans hx hlead)

/-- **The thread of the start can be continued** by the thread of any target that no other one has
to precede. -/
theorem Coherent.joins_of_least (h : s.Coherent P) (hP : P.WellFormed) (ht : t ∈ s.targets)
    (hleast : ∀ a ∈ s.targets, a ∉ (s.link t).before) :
    ∃ o, o ∈ (s.link P.start).chain ∧ Joins P s o t := by
  obtain ⟨c, hstart, hc⟩ := h.thread hP.start_lt
  have hne := List.ne_nil_of_mem hstart
  have hlast := List.getLast_mem hne
  have ho := (hc.chain hstart).mpr hlast
  have hbefore : ∀ x, x ∉ (s.link (c.getLast hne)).before := fun x hx =>
    h.not_mem_before_start hP (h.before_eq ho ▸ hx)
  have hfree := h.targets.mp ht
  refine ⟨c.getLast hne, ho, h, h.lt_of_mem_chain ho,
    hc.last (List.getLast?_eq_some_getLast hne), List.mem_filter.mpr ⟨ht, ?_⟩⟩
  refine (mayJoin_iff h (h.lt_of_mem_chain ho)).mpr ⟨fun hot => ?_, hbefore t,
    fun x hx => absurd hx (hbefore x), fun x hxo hxt => ?_⟩
  · -- the thread of the start has only one first node
    have htc : t ∈ c := (hc.chain hlast).mp (h.mem_chain_comm.mp hot)
    have := (hc.head_eq h htc hfree.2.2).symm.trans (hc.head_eq h hstart h.start)
    exact hfree.2.1 (Option.some.inj this)
  · -- the first node of the thread of `x` would come before `t`
    obtain ⟨z, hz, rfl | hz'⟩ := h.exists_head (h.lt_of_mem_before hxt)
    · have hxo' : x ∈ (s.link (c.getLast hne)).chain := by
        rw [← h.chain_eq (h.mem_chain_comm.mp ho)]
        exact h.mem_chain_comm.mp hz
      exact h.apart (h.converse.mpr hxo) (h.mem_chain_comm.mp hxo')
    · exact hleast z hz' (h.chain_before hz hxt)

/-- The thread of the start can be continued as long as there is another one. -/
theorem Coherent.exists_joins (h : s.Coherent P) (hP : P.WellFormed) (hopen : s.targets ≠ []) :
    ∃ o t, Joins P s o t := by
  obtain ⟨t, ht, hleast⟩ := exists_least (r := fun a b => a ∈ (s.link b).before)
    (fun _ => h.not_before_self) h.trans hopen
  obtain ⟨o, -, hjoin⟩ := h.joins_of_least hP ht hleast
  exact ⟨o, t, hjoin⟩

/-- **Every coherent state can be completed to a route.** -/
theorem Coherent.exists_route (h : s.Coherent P) (hP : P.WellFormed) :
    ∃ R, P.IsRoute R ∧ s.KeptBy R := by
  induction hn : s.targets.length using Nat.strongRecOn generalizing s with
  | ind n ih =>
    by_cases hdone : s.targets = []
    · obtain ⟨c, -, hc, hall⟩ := h.thread_all hP hdone
      exact ⟨c, hc.isRoute hP h hall, fun a b hab =>
        hc.mem_arcs ((hall a).mpr (h.lt_of_successor hab)) hab⟩
    · obtain ⟨o, t, hjoin⟩ := h.exists_joins hP hdone
      have hless : (s.tie P none o t).targets.length < n := by
        rw [tie_targets, ← hn]
        exact List.length_filter_lt_length_iff_exists.mpr ⟨t, hjoin.mem_targets, by simp⟩
      obtain ⟨R, hR, hkept⟩ := ih _ hless hjoin.coherent_tie rfl
      exact ⟨R, hR, (hjoin.keptBy_tie.mp hkept).1⟩

/-! ## Candidates -/

theorem Coherent.prev_eq_none_of_arc (h : s.Coherent P) (hR : P.IsRoute R) (hkept : s.KeptBy R)
    (hfree : s.successor a = none) (hab : (a, b) ∈ arcs R) : (s.link b).prev = none := by
  refine Option.eq_none_iff_forall_ne_some.mpr fun x hx => ?_
  have hxb := h.prev_iff.mp hx
  rw [arc_left_unique hR.nodup (hkept x b hxb) hab, hfree] at hxb
  cases hxb

/-- Otherwise `a` would be the last and `b` the first node of one thread. -/
theorem Coherent.not_mem_chain_of_arc (h : s.Coherent P) (hR : P.IsRoute R) (hkept : s.KeptBy R)
    (hfree : s.successor a = none) (hab : (a, b) ∈ arcs R) : a ∉ (s.link b).chain := by
  intro hm
  obtain ⟨hbR, hpos⟩ := (mem_arcs_iff hR.nodup).mp hab
  have hprev := h.prev_eq_none_of_arc hR hkept hfree hab
  obtain ⟨c, hbc, hc⟩ := h.thread (hR.mem_iff.mp hbR)
  have hac := (hc.chain hbc).mp hm
  obtain ⟨l, r, rfl⟩ := hc.isInfix hR.nodup hkept fun y hy =>
    hR.mem_iff.mpr (h.lt_of_mem_chain ((hc.chain hbc).mpr hy))
  have hnodup := hR.nodup
  rw [List.append_assoc] at hpos hnodup
  rw [idxOf_append hnodup (List.head?_eq_getElem? ▸ hc.head_eq h hbc hprev),
    idxOf_append hnodup (List.getLast?_eq_getElem? ▸ hc.getLast_eq hac hfree)] at hpos
  omega

/-- **The candidates of a node are its successors in the routes that keep the state.** -/
theorem mem_candidates_iff (h : s.Coherent P) (hs : Sound P s) (hP : P.WellFormed)
    (ha : a < P.size) (hfree : s.successor a = none) :
    b ∈ s.candidates a ↔ ∃ R, P.IsRoute R ∧ s.KeptBy R ∧ (a, b) ∈ arcs R := by
  constructor
  · intro hb
    have hjoin : Joins P s a b := ⟨h, ha, hfree, hb⟩
    have hcoherent : (s.tie P none a b).Coherent P := hjoin.coherent_tie
    obtain ⟨R, hR, hkept⟩ := hcoherent.exists_route hP
    exact ⟨R, hR, hjoin.keptBy_tie.mp hkept⟩
  · rintro ⟨R, hR, hkept, hab⟩
    obtain ⟨hbR, hpos⟩ := (mem_arcs_iff hR.nodup).mp hab
    have hb : b < P.size := hR.mem_iff.mp hbR
    have hprev := h.prev_eq_none_of_arc hR hkept hfree hab
    refine List.mem_filter.mpr ⟨h.targets.mpr ⟨hb, hR.arc_to_ne_start hab, hprev⟩,
      (mayJoin_iff h ha).mpr ⟨h.not_mem_chain_of_arc hR hkept hfree hab, fun hm => ?_,
        fun x hx hx' => ?_, fun x hx hx' => ?_⟩⟩
    · have := hs R hR hkept _ _ hm
      omega
    · have := hs R hR hkept _ _ hx
      have := hs R hR hkept _ _ (h.converse.mpr hx')
      omega
    · have := hs R hR hkept _ _ hx'
      have := hs R hR hkept _ _ (h.converse.mpr hx)
      omega

end Chains

end Fathom.Routing
