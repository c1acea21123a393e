import Fathom.Proofs.Faults
import Fathom.Proofs.Routing.Formulation

/-!
# Searches for a route that do not fault

Bounding a state walks three diagrams, and each may fault on its way: where a cost leaves its range,
where a relaxation is solved, where a layer is merged. `Robust` collects what a way to search for
routes has to tell of its states for none of this to happen. It does not ask that routes be found.

The states of a search and of its restrictions are counted by `level`, which limits the depth of the
tree. The states of relaxations go on as far as the restrictions do, but they are folded, so that
they may be known less well: they are only `loose`.

Results:
* `Robust.steady_of_run`: what is known holds along every run of the lockstep;
* `Robust.calm`: no bound of the search tree faults, nor does branching, and the tree is finite;
* `Robust.guard`: this does not change if the search is to fault outside a set of states that holds
  the loose ones.
-/

namespace Fathom

variable {σ δ : Type}

/-- The states of the layer are `loose` at `n`, and merging keeps states so. -/
structure Diagram.Loose (loose : Nat → σ → Prop) (n : Nat) (d : Diagram σ) : Prop where
  states : ∀ t ∈ d.layer.states, loose n t
  merges : ∀ m depth states, (∀ t ∈ states, loose m t) →
    ∃ kept, Merger.shrink d.mergers d.width depth states = .ok kept ∧ ∀ t ∈ kept, loose m t

/-- **A loose diagram advances** if its states do. -/
theorem Diagram.Loose.advance {loose : Nat → σ → Prop} {n : Nat} {d : Diagram σ} {S : Space σ δ}
    {dual : Option δ} {best : Option Int} (h : d.Loose loose n)
    (hexpands : ∀ s ∈ d.layer.states,
      ∃ next, S.expand s dual best = .ok next ∧ ∀ t ∈ next, loose (n + 1) t) :
    ∃ e, (d.advance S dual best).result = .ok e ∧ e.Loose loose (n + 1) := by
  obtain ⟨reached, hreached⟩ := Space.branchAll_total fun s hs =>
    (hexpands s hs).imp fun _ hnext => hnext.1
  have hloose : ∀ t ∈ reached, loose (n + 1) t := by
    intro t ht
    obtain ⟨s, hs, next, he, ht⟩ := (Space.mem_of_branchAll hreached t).mp ht
    obtain ⟨next', he', hnext⟩ := hexpands s hs
    cases he.symm.trans he'
    exact hnext t ht
  obtain ⟨kept, hkept, hloose⟩ := h.merges (n + 1) (d.layer.depth + 1) reached hloose
  exact ⟨_, advance_eq_ok_iff.mpr ⟨reached, kept, hreached, hkept, rfl⟩, hloose, h.merges⟩

namespace Routing

open Assignment (Serves)

variable {P : Instance} {most : Int}

/-- A relaxation that is at hand is solved. Whether any route is left does not matter. -/
abbrev Solved (P : Instance) (most : Int) (hint : Option Assignment) : Prop :=
  Fits P most true (fun _ => False) hint

/-- What a way to search for routes tells of its states. -/
structure Robust (P : Instance) (most : Int) {σ : Type} (D : Domain σ Assignment)
    (level loose : Nat → σ → Prop) (limit : Nat) : Prop where
  dual : D.dual = Assignment.space
  tall : limit < D.height
  level_le : ∀ {n s}, level n s → n ≤ limit
  loose_of_level : ∀ {n s}, level n s → loose n s
  infers : ∀ {n s}, level n s → ∃ hint width,
    D.infer s = .ok (hint.map fun a => a.diagram width) ∧ Solved P most hint
  relaxes : ∀ {n s}, level n s → ∃ d, D.relax s = .ok d ∧ ∀ e, d = some e → e.Loose loose n
  restricts : ∀ {n s}, level n s →
    ∃ width, D.restrict s = .ok (some (Diagram.root s [Merger.cheapest D.cost] width))
  expands : ∀ {n s hint} best, loose n s → n ≤ limit → Solved P most hint →
    ∃ next, D.expand s hint best = .ok next ∧ ∀ t ∈ next, loose (n + 1) t
  leads : ∀ {n s hint best next t}, level n s → Solved P most hint →
    D.expand s hint best = .ok next → t ∈ next → level (n + 1) t

namespace Robust

variable {σ : Type} {D : Domain σ Assignment} {level loose : Nat → σ → Prop} {limit n k : Nat}
  {r s t : σ} {best : Option Int} {L L' : Lockstep σ Assignment} {b : Bound σ Assignment}

/-! ## Along a run -/

/-- What is known of the lockstep of `r`, a state of level `n`, after `k` rounds. -/
structure Steady (P : Instance) (most : Int) (D : Domain σ Assignment)
    (level loose : Nat → σ → Prop) (n k : Nat) (L : Lockstep σ Assignment) : Prop where
  inferring : Inferring (fun a => Solved P most (some a)) L
  restricts : L.restrict.Restricts D.cost
  states : ∀ t ∈ L.restrict.layer.states, level (n + k) t
  relaxed : ∀ d, L.relax = some d → d.Loose loose (n + k)

theorem Steady.start (h : Robust P most D level loose limit) (hr : level n r)
    (hs : Lockstep.start D r = .ok L) : Steady P most D level loose n 0 L := by
  obtain ⟨hint, width, hinfer, hsolved⟩ := h.infers hr
  obtain ⟨relax', hrelax, hloose⟩ := h.relaxes hr
  obtain ⟨width', hrestrict⟩ := h.restricts hr
  have hinferring : Inferring (fun a => Solved P most (some a)) L :=
    .start hinfer (fun _ ha => ha ▸ hsolved) hs
  obtain ⟨infer, relax, restrict, -, hx, hd, rfl⟩ := Lockstep.start_eq_ok_iff.mp hs
  rw [hrelax, Except.ok.injEq] at hx
  rw [hrestrict, Except.ok.injEq, Option.some.injEq] at hd
  subst hx hd
  refine ⟨hinferring, rfl, fun t ht => ?_, hloose⟩
  rw [List.mem_singleton.mp ht]
  exact hr

theorem Steady.note_inferenceDual (hL : Steady P most D level loose n k L) :
    Solved P most (L.note D).inferenceDual :=
  fun a ha => hL.inferring.note ha a rfl

/-- Where the lockstep goes on, its states lie within the limit. -/
theorem Steady.le_limit (h : Robust P most D level loose limit)
    (hL : Steady P most D level loose n k L) (hv : L.verdict D best r = none) : n + k ≤ limit := by
  obtain ⟨t, ht⟩ := List.exists_mem_of_ne_nil _ (Lockstep.verdict_eq_none hv).1
  exact h.level_le (hL.states t ht)

/-- The relaxation goes one layer further. -/
theorem Steady.relax_advance (h : Robust P most D level loose limit)
    (hL : Steady P most D level loose n k L) (hv : L.verdict D best r = none) {d : Diagram σ}
    (hd : L.relax = some d) :
    ∃ e, (d.advance D.toSpace (L.note D).inferenceDual best).result = .ok e ∧
      e.Loose loose (n + k + 1) :=
  (hL.relaxed d hd).advance fun s hs =>
    h.expands best ((hL.relaxed d hd).states s hs) (hL.le_limit h hv) hL.note_inferenceDual

/-- **The lockstep advances.** -/
theorem Steady.advances (h : Robust P most D level loose limit)
    (hL : Steady P most D level loose n k L) (hv : L.verdict D best r = none) :
    ∃ L', Lockstep.Advances D best (L.note D) L' := by
  refine Lockstep.exists_advances (fun d hd => hL.inferring.advances h.dual _ hd) (fun d hd => ?_)
    (hL.restricts.advance_total fun t ht => ?_)
  · obtain ⟨e, he, -⟩ := hL.relax_advance h hv hd
    exact ⟨e, he⟩
  · obtain ⟨next, he, -⟩ := h.expands best (h.loose_of_level (hL.states t ht)) (hL.le_limit h hv)
      hL.note_inferenceDual
    exact ⟨next, he⟩

/-- **One round keeps what is known.** -/
theorem Steady.step (h : Robust P most D level loose limit)
    (hL : Steady P most D level loose n k L) (hv : L.verdict D best r = none)
    (hadv : Lockstep.Advances D best (L.note D) L') :
    Steady P most D level loose n (k + 1) L' := by
  have hrestrict := hadv.restrict
  rw [Lockstep.note_restrict] at hrestrict
  obtain ⟨hrestricts, hyields, -⟩ := hL.restricts.advance hrestrict
  refine ⟨hL.inferring.step h.dual hadv, hrestricts, fun t ht => ?_, fun d' hd' => ?_⟩
  · obtain ⟨s, hs, next, he, ht⟩ := hyields t ht
    exact h.leads (hL.states s hs) hL.note_inferenceDual he ht
  · obtain ⟨d, hd, hadvance⟩ := hadv.exists_relax hd'
    obtain ⟨e, he, hloose⟩ := hL.relax_advance h hv hd
    cases he.symm.trans hadvance
    exact hloose

/-- **What is known holds along every run.** -/
theorem steady_of_run (h : Robust P most D level loose limit) (hr : level n r)
    (hrun : Lockstep.Run D best r k L) : Steady P most D level loose n k L := by
  induction hrun with
  | start hs => exact Steady.start h hr hs
  | step _ hv hadv ih => exact ih.step h hv hadv

/-! ## The search tree -/

/-- **Every state is bounded.** -/
theorem exists_bound (h : Robust P most D level loose limit) (hr : level n r) (best : Option Int) :
    ∃ b, (Bound.compute D r best).result = .ok b := by
  obtain ⟨hint, width, hinfer, -⟩ := h.infers hr
  obtain ⟨relax, hrelax, -⟩ := h.relaxes hr
  obtain ⟨width', hrestrict⟩ := h.restricts hr
  have hstart := Lockstep.start_eq_ok_iff.mpr ⟨_, relax, _, hinfer, hrelax, hrestrict, rfl⟩
  obtain ⟨-, -, b, -, -, hb⟩ := Bound.compute_total best hstart fun k L hrun hv => by
    have hL := h.steady_of_run hr hrun
    have hle := hL.le_limit h hv
    have htall := h.tall
    exact ⟨by omega, hL.advances h hv⟩
  exact ⟨b, hb⟩

/-- A relaxed bound passes a solved relaxation on. -/
theorem solved_of_relaxed (h : Robust P most D level loose limit) (hr : level n r)
    (hb : (Bound.compute D r best).result = .ok b) (hlabel : b.label = .relaxed) :
    Solved P most b.inferenceDual := by
  obtain ⟨k, L, hrun, hv⟩ := Bound.compute_eq_ok hb
  have hL := h.steady_of_run hr hrun
  obtain ⟨-, rfl⟩ | ⟨-, -, hfailed, -⟩ := Lockstep.verdict_eq_some hv
  · rw [(Lockstep.conclude_cases D L r).2.1]
    exact fun a ha => hL.inferring.dual a ha a rfl
  · rw [hlabel] at hfailed
    cases hfailed

/-- The states of the search tree have their depth as level. -/
theorem level_of_steps (h : Robust P most D level loose limit) (hr : level 0 r)
    (hs : Steps D.Branches n r s) : level n s := by
  refine hs.invariant (P := level) hr fun n s t hs hst => ?_
  obtain ⟨best, b, best', next, hb, hlabel, he, ht⟩ := hst
  exact h.leads hs (h.solved_of_relaxed hs hb hlabel) he ht

/-- **No bound of the search tree faults**, nor does branching, and the tree is finite. -/
theorem calm (h : Robust P most D level loose limit) (hr : level 0 r) :
    D.Calm r ∧ D.Finite r := by
  refine ⟨⟨fun t best ⟨n, hn⟩ => h.exists_bound (h.level_of_steps hr hn) best,
    fun t best b best' ⟨n, hn⟩ hb hlabel => ?_⟩, limit, fun n t hn =>
      h.level_le (h.level_of_steps hr hn)⟩
  have hlevel := h.level_of_steps hr hn
  obtain ⟨next, he, -⟩ := h.expands best' (h.loose_of_level hlevel) (h.level_le hlevel)
    (h.solved_of_relaxed hlevel hb hlabel)
  exact ⟨next, he⟩

/-! ## Guarded searches -/

/-- **A guard that admits the loose states changes nothing.** -/
theorem guard (h : Robust P most D level loose limit) {inside : σ → Bool}
    (hinside : ∀ {n s}, loose n s → inside s = true) :
    Robust P most (D.guard inside) level loose limit where
  dual := h.dual
  tall := h.tall
  level_le := h.level_le
  loose_of_level := h.loose_of_level
  infers hs := by
    rw [Domain.guard_infer (hinside (h.loose_of_level hs))]
    exact h.infers hs
  relaxes hs := by
    rw [Domain.guard_relax (hinside (h.loose_of_level hs))]
    exact h.relaxes hs
  restricts hs := by
    rw [Domain.guard_restrict (hinside (h.loose_of_level hs))]
    exact h.restricts hs
  expands best hs hn hsolved := by
    obtain ⟨next, he, hnext⟩ := h.expands best hs hn hsolved
    exact ⟨next, Domain.guard_expand_eq_ok_iff.mpr
      ⟨he, hinside hs, fun t ht => hinside (hnext t ht)⟩, hnext⟩
  leads hs hsolved he := h.leads hs hsolved (Domain.guard_expand_eq_ok_iff.mp he).1

/-- **A search of this kind never faults**, nor would it on states that are not loose. -/
theorem safe (h : Robust P most D level loose limit) {inside : σ → Bool}
    (hinside : ∀ {n s}, loose n s → inside s = true) (hr : level 0 r) : D.Safe inside r :=
  ⟨(h.calm hr).1.returns (h.calm hr).2,
    ((h.guard hinside).calm hr).1.returns ((h.guard hinside).calm hr).2⟩

end Robust

end Routing

end Fathom
