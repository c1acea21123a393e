import Fathom.Proofs.Lockstep
import Mathlib.Data.Nat.Find

/-!
# Domains whose solutions all lie at one depth

In a *levelled* domain every state of the search has a level, and it is solved exactly on the last
one. What lies below a state is given by `offers s c`, "a solution of cost `c` lies below `s`", so
that the same argument serves domains whose states carry more than their position in the tree.
No hint the lockstep passes on may lose an offer that improves on the incumbent, and inference and
relaxation diagrams must be admissible (`Admissible`).

The invariant of the argument is `Holds`: after `k` rounds the restriction stands `k` levels below
the root, an exact restriction still holds every offer that improves, and the floor is at most each
of them. Since the last level is where solutions lie, a restriction that ends above it and is
exact proves that there is none.

Results: `Levelled.trusted`, `Levelled.answering`.
-/

namespace Fathom

variable {σ δ : Type}

/-- The lockstep of a state on some level passes `dual` on to the expansion of `s`: as the hint of a
layer of the restriction, or as the hint of branching on its root. -/
def Lockstep.Passes (D : Domain σ δ) (level : Nat → σ → Prop) (s : σ) (dual : Option δ) : Prop :=
  ∃ best r n k L, level n r ∧ Lockstep.Run D best r k L ∧ L.verdict D best r = none ∧
    (s = r ∨ s ∈ L.restrict.layer.states) ∧ (L.note D).inferenceDual = dual

/-- All solutions lie at one depth, and the hints of the lockstep lose none that improves. -/
structure Levelled (D : Domain σ δ) (level : Nat → σ → Prop) (depth : Nat)
    (offers : σ → Int → Prop) : Prop where
  level_le : ∀ {n s}, level n s → n ≤ depth
  solved_iff : ∀ {n s}, level n s → (D.solved s = true ↔ n = depth)
  cost_le : ∀ {n s c}, level n s → offers s c → D.cost s ≤ c
  restricts : ∀ {n s}, level n s →
    ∃ width, D.restrict s = .ok (some (Diagram.root s [Merger.cheapest D.cost] width))
  expands : ∀ {n s dual} best, level n s → Lockstep.Passes D level s dual →
    ∃ next, D.expand s dual best = .ok next
  leads : ∀ {n s dual best next t}, level n s → Lockstep.Passes D level s dual →
    D.expand s dual best = .ok next → t ∈ next → level (n + 1) t
  keeps : ∀ {n s dual best next c}, level n s → n < depth → Lockstep.Passes D level s dual →
    D.expand s dual best = .ok next → offers s c → Cost.beats best c = true →
      ∃ t ∈ next, offers t c
  tall : depth < D.height

/-- The inference and relaxation diagrams never fault, and down to the depth of a solution that
improves each of their layers has a state that costs no more than it. -/
structure Admissible (D : Domain σ δ) (level : Nat → σ → Prop) (depth : Nat)
    (offers : σ → Int → Prop) : Prop where
  infers : ∀ {n r}, level n r → ∃ d, D.infer r = .ok d
  relaxes : ∀ {n r}, level n r → ∃ d, D.relax r = .ok d
  infer_le : ∀ {n r best k L d c}, level n r → Lockstep.Run D best r k L → n + k ≤ depth →
    offers r c → Cost.beats best c = true → L.infer = some d →
      ∃ a, d.layer.best D.dual.cost = some a ∧ D.dual.cost a ≤ c
  relax_le : ∀ {n r best k L d c}, level n r → Lockstep.Run D best r k L → n + k ≤ depth →
    offers r c → Cost.beats best c = true → L.relax = some d →
      ∃ a, d.layer.best D.cost = some a ∧ D.cost a ≤ c
  infer_advances : ∀ {n r best k L d}, level n r → Lockstep.Run D best r k L →
    L.verdict D best r = none → L.infer = some d →
      ∃ d', (d.advance D.dual (L.note D).inferenceDual best).result = .ok d'
  relax_advances : ∀ {n r best k L d}, level n r → Lockstep.Run D best r k L →
    L.verdict D best r = none → L.relax = some d →
      ∃ d', (d.advance D.toSpace (L.note D).inferenceDual best).result = .ok d'

namespace Levelled

variable {D : Domain σ δ} {level : Nat → σ → Prop} {depth : Nat} {offers : σ → Int → Prop}
  {best : Option Int} {r : σ} {n k : Nat} {L : Lockstep σ δ}

/-- What is known of the lockstep of `r`, a state of level `n`, after `k` rounds. -/
structure Holds (D : Domain σ δ) (level : Nat → σ → Prop) (depth : Nat)
    (offers : σ → Int → Prop) (best : Option Int) (r : σ) (n k : Nat) (L : Lockstep σ δ) :
    Prop where
  restricts : L.restrict.Restricts D.cost
  levels : ∀ t ∈ L.restrict.layer.states, level (n + k) t
  /-- An exact restriction has lost no offer that improves. -/
  exact : L.restrict.layer.isExact = true → n + k ≤ depth → ∀ c, offers r c →
    Cost.beats best c = true → ∃ t ∈ L.restrict.layer.states, offers t c
  cost_le_floor : D.cost r ≤ L.floor
  /-- The floor is a lower bound of what is offered and improves. -/
  floor_le : ∀ c, offers r c → Cost.beats best c = true → L.floor ≤ c
  /-- The primal was read one level above. -/
  primal : ∀ j, k = j + 1 → level (n + j) L.primal ∧ (j = 0 → L.primal = r)
  passes : 0 < k → Lockstep.Passes D level r L.inferenceDual
  first : k = 0 → L.restrict.layer.states = [r]

theorem Holds.start (h : Levelled D level depth offers) (hr : level n r)
    (hs : Lockstep.start D r = .ok L) : Holds D level depth offers best r n 0 L := by
  obtain ⟨infer, relax, restrict, -, -, hd, rfl⟩ := Lockstep.start_eq_ok_iff.mp hs
  obtain ⟨width, hw⟩ := h.restricts hr
  rw [hw, Except.ok.injEq, Option.some.injEq] at hd
  subst hd
  refine ⟨rfl, fun t ht => ?_, fun _ _ c hc _ => ⟨r, List.mem_singleton.mpr rfl, hc⟩,
    Int.le_refl _, fun c hc _ => h.cost_le hr hc, fun j hj => ?_, fun hk => ?_, fun _ => rfl⟩
  · rw [List.mem_singleton.mp ht]
    exact hr
  · omega
  · omega

/-- **One round keeps what is known.** -/
theorem Holds.step (h : Levelled D level depth offers) (ha : Admissible D level depth offers)
    (hr : level n r) (hrun : Lockstep.Run D best r k L)
    (hL : Holds D level depth offers best r n k L)
    (hv : L.verdict D best r = none) {L' : Lockstep σ δ}
    (hadv : Lockstep.Advances D best (L.note D) L') :
    Holds D level depth offers best r n (k + 1) L' := by
  obtain ⟨hne, -, -, p, hp, -⟩ := Lockstep.verdict_eq_none hv
  have hmem : p ∈ L.restrict.layer.states := Layer.best_mem hp
  have hle : n + k ≤ depth := h.level_le (hL.levels p hmem)
  have hpasses : ∀ s, s = r ∨ s ∈ L.restrict.layer.states →
      Lockstep.Passes D level s (L.note D).inferenceDual := fun s hs =>
    ⟨best, r, n, k, L, hr, hrun, hv, hs, rfl⟩
  have hd := hadv.restrict
  rw [Lockstep.note_restrict] at hd
  obtain ⟨hrestricts, hyields, hexact⟩ := hL.restricts.advance hd
  refine ⟨hrestricts, fun t ht => ?_, fun he hk c hc hb => ?_, ?_, fun c hc hb => ?_,
    fun j hj => ?_, fun _ => ?_, fun hk => by omega⟩
  · obtain ⟨s, hs, next, hnext, ht⟩ := hyields t ht
    exact h.leads (hL.levels s hs) (hpasses s (.inr hs)) hnext ht
  · obtain ⟨he, hall⟩ := hexact he
    obtain ⟨s, hs, hoffers⟩ := hL.exact he hle c hc hb
    obtain ⟨next, hnext⟩ := h.expands best (hL.levels s hs) (hpasses s (.inr hs))
    obtain ⟨t, ht, hoffers⟩ :=
      h.keeps (hL.levels s hs) (by omega) (hpasses s (.inr hs)) hnext hoffers hb
    exact ⟨t, hall t ⟨s, hs, next, hnext, ht⟩, hoffers⟩
  · rw [hadv.floor]
    exact Int.le_trans hL.cost_le_floor Lockstep.floor_le_note
  · rw [hadv.floor]
    refine Lockstep.note_floor_le (hL.floor_le c hc hb) (fun d a hi hbest => ?_)
      fun d a hi hbest => ?_
    · obtain ⟨a', ha', hcost⟩ := ha.infer_le hr hrun hle hc hb hi
      rw [hbest, Option.some.injEq] at ha'
      exact ha' ▸ hcost
    · obtain ⟨a', ha', hcost⟩ := ha.relax_le hr hrun hle hc hb hi
      rw [hbest, Option.some.injEq] at ha'
      exact ha' ▸ hcost
  · obtain rfl : k = j := by omega
    rw [hadv.primal, Lockstep.note_primal hp]
    refine ⟨hL.levels p hmem, fun hk => ?_⟩
    rw [hL.first hk] at hmem
    exact List.mem_singleton.mp hmem
  · rw [hadv.inferenceDual]
    exact hpasses r (.inl rfl)

/-- **What is known holds along every run.** -/
theorem holds_of_run (h : Levelled D level depth offers) (ha : Admissible D level depth offers)
    (hr : level n r) (hrun : Lockstep.Run D best r k L) :
    Holds D level depth offers best r n k L := by
  induction hrun with
  | start hs => exact Holds.start h hr hs
  | step hrun hv hadv ih => exact ih.step h ha hr hrun hv hadv

/-! ## Soundness -/

/-- A diagram that closes offers nothing that improves. -/
theorem closes_imp {τ : Type} {cost : τ → Int} {d : Option (Diagram τ)} {c : Int}
    (hc : Lockstep.closes cost best d = true)
    (hle : ∀ e, d = some e → ∃ a, e.layer.best cost = some a ∧ cost a ≤ c) :
    Cost.beats best c = false := by
  cases d with
  | none => cases hc
  | some e =>
    obtain ⟨a, ha, hac⟩ := hle e rfl
    refine Bool.eq_false_iff.mpr fun hb => ?_
    have hno := Lockstep.closes_iff.mp hc a ha
    rw [Cost.beats_of_le hac hb] at hno
    cases hno

/-- **A lockstep that ends early is right**: no offer of the root improves. -/
theorem not_beats_of_closed (h : Levelled D level depth offers)
    (ha : Admissible D level depth offers) (hr : level n r) (hrun : Lockstep.Run D best r k L)
    (hne : L.restrict.layer.states ≠ [])
    (hwhy : Lockstep.closes D.dual.cost best L.infer = true ∨
      Lockstep.closes D.cost best L.relax = true ∨ (L.restrict.layer.isExact = true ∧
        ∃ p, L.restrict.layer.best D.cost = some p ∧ Cost.beats best (D.cost p) = false))
    {c : Int} (hc : offers r c) : Cost.beats best c = false := by
  have hL := holds_of_run h ha hr hrun
  obtain ⟨t, ht⟩ := List.exists_mem_of_ne_nil _ hne
  have hle : n + k ≤ depth := h.level_le (hL.levels t ht)
  refine Bool.eq_false_iff.mpr fun hb => ?_
  obtain hi | hx | ⟨he, p, hp, hpb⟩ := hwhy
  · have := closes_imp hi fun d hd => ha.infer_le hr hrun hle hc hb hd
    rw [hb] at this
    cases this
  · have := closes_imp hx fun d hd => ha.relax_le hr hrun hle hc hb hd
    rw [hb] at this
    cases this
  · obtain ⟨t, ht, hoffers⟩ := hL.exact he hle c hc hb
    have hpc : D.cost p ≤ c :=
      Int.le_trans (Layer.cost_best_le hp t ht) (h.cost_le (hL.levels t ht) hoffers)
    rw [Cost.beats_of_le hpc hb] at hpb
    cases hpb

/-- A root to be branched on is branched on with a hint of its own lockstep. -/
theorem passes_of_relaxed (h : Levelled D level depth offers)
    (ha : Admissible D level depth offers) (hr : level n r) (hrun : Lockstep.Run D best r k L)
    {b : Bound σ δ} (hv : L.verdict D best r = some b) (hl : b.label = .relaxed) :
    Lockstep.Passes D level r b.inferenceDual := by
  have hL := holds_of_run h ha hr hrun
  obtain ⟨hdone, rfl⟩ | ⟨-, -, hlabel, -⟩ := Lockstep.verdict_eq_some hv
  · rw [(Lockstep.conclude_cases D L r).2.1]
    refine hL.passes (Nat.pos_of_ne_zero fun hk => ?_)
    rw [hL.first hk] at hdone
    cases hdone
  · rw [hl] at hlabel; cases hlabel

/-- **The verdict of a run is sound.** -/
theorem sound_of_run (h : Levelled D level depth offers) (ha : Admissible D level depth offers)
    (hr : level n r) (hrun : Lockstep.Run D best r k L) {b : Bound σ δ}
    (hv : L.verdict D best r = some b) :
    b.root = r ∧ b.Sound D (fun s => ∃ n, level n s) offers best := by
  have hL := holds_of_run h ha hr hrun
  obtain ⟨hdone, rfl⟩ | ⟨hne, hroot, hlabel, hwhy⟩ := Lockstep.verdict_eq_some hv
  · -- the restriction is exhausted, one level below the primal
    obtain ⟨j, rfl⟩ : ∃ j, k = j + 1 := by
      cases k with
      | zero => rw [hL.first rfl] at hdone; cases hdone
      | succ j => exact ⟨j, rfl⟩
    obtain ⟨hprimal, hfirst⟩ := hL.primal j rfl
    have hj : n + j ≤ depth := h.level_le hprimal
    obtain ⟨hroot, -, hcases⟩ := Lockstep.conclude_cases D L r
    -- a root on the last level is solved, and then it is its own exact primal
    have hbranch : (L.conclude D r).label = .relaxed → n < depth := by
      intro hl
      refine Nat.lt_of_le_of_ne (h.level_le hr) fun hn => ?_
      have hprimal' : L.primal = r := hfirst (by omega)
      have hsolved : D.solved r = true := (h.solved_iff hr).mpr hn
      rw [hprimal'] at hcases
      obtain ⟨-, -, hlabel⟩ | ⟨hs, -⟩ | ⟨hs, -⟩ := hcases
      · rw [hl, if_neg (Int.not_lt.mpr hL.cost_le_floor)] at hlabel
        cases hlabel
      · rw [hs] at hsolved; cases hsolved
      · rw [hs] at hsolved; cases hsolved
    refine ⟨hroot, fun hl => ?_, fun hl c hc => ?_, fun hl c hc hb => ?_, fun hl => ?_⟩
    · obtain ⟨-, hp, -⟩ | ⟨-, -, hlabel⟩ | ⟨-, -, hp, -⟩ := hcases
      · exact ⟨n + j, hp ▸ hprimal⟩
      · exact absurd hlabel hl
      · exact ⟨n, by rw [hp]; exact hr⟩
    · rw [hroot] at hc
      obtain ⟨-, -, hlabel⟩ | ⟨hs, he, -⟩ | ⟨-, -, -, hlabel⟩ := hcases
      · rw [hl] at hlabel
        split at hlabel <;> cases hlabel
      · -- an unsolved primal lies above the last level, so the offer would be in the next layer
        have hlt : n + (j + 1) ≤ depth := by
          have hne : n + j ≠ depth := by
            intro heq
            rw [(h.solved_iff hprimal).mpr heq] at hs
            cases hs
          omega
        refine Bool.eq_false_iff.mpr fun hb => ?_
        obtain ⟨t, ht, -⟩ := hL.exact he hlt c hc hb
        rw [hdone] at ht
        cases ht
      · rw [hl] at hlabel; cases hlabel
    · rw [hroot] at hc
      obtain ⟨hs, hp, hlabel⟩ | ⟨-, -, hlabel⟩ | ⟨-, -, -, hlabel⟩ := hcases
      · rw [hl] at hlabel
        split at hlabel
        · cases hlabel
        · rename_i hfloor
          rw [hp]
          exact ⟨hs, Int.le_trans (Int.not_lt.mp hfloor) (hL.floor_le c hc hb)⟩
      · rw [hl] at hlabel; cases hlabel
      · rw [hl] at hlabel; cases hlabel
    · intro best' next hnext
      have hpasses := passes_of_relaxed h ha hr hrun hv hl
      rw [hroot] at hnext
      refine ⟨fun t ht => ⟨n + 1, h.leads hr hpasses hnext ht⟩, fun c hc hb => ?_⟩
      rw [hroot] at hc
      exact h.keeps hr (hbranch hl) hpasses hnext hc hb
  · refine ⟨hroot, fun hl => absurd hlabel hl, fun _ c hc => ?_, fun hl => ?_, fun hl => ?_⟩
    · rw [hroot] at hc
      exact not_beats_of_closed h ha hr hrun hne hwhy hc
    · rw [hlabel] at hl; cases hl
    · rw [hlabel] at hl; cases hl

/-- **Bounds on a levelled domain can be trusted.** -/
theorem trusted (h : Levelled D level depth offers) (ha : Admissible D level depth offers) :
    D.Trusted (fun s => ∃ n, level n s) offers where
  cost_le _ _ := fun ⟨_, hs⟩ hc => h.cost_le hs hc
  sound s best b := fun ⟨n, hs⟩ hb => by
    obtain ⟨k, L, hrun, hv⟩ := Bound.compute_eq_ok hb
    exact sound_of_run h ha hs hrun hv

/-! ## Termination -/

/-- Where the lockstep goes on, no diagram faults. -/
theorem exists_advances (h : Levelled D level depth offers) (ha : Admissible D level depth offers)
    (hr : level n r) (hrun : Lockstep.Run D best r k L) (hv : L.verdict D best r = none) :
    ∃ L', Lockstep.Advances D best (L.note D) L' := by
  have hL := holds_of_run h ha hr hrun
  exact Lockstep.exists_advances (fun d hd => ha.infer_advances hr hrun hv hd)
    (fun d hd => ha.relax_advances hr hrun hv hd)
    (hL.restricts.advance_total fun s hs =>
      h.expands best (hL.levels s hs) ⟨best, r, n, k, L, hr, hrun, hv, .inr hs, rfl⟩)

/-- **Every state of the search has a bound**: the restriction has at most one layer a level. -/
theorem exists_bound (h : Levelled D level depth offers) (ha : Admissible D level depth offers)
    (hr : level n r) (best : Option Int) : ∃ b, (Bound.compute D r best).result = .ok b := by
  obtain ⟨infer, hi⟩ := ha.infers hr
  obtain ⟨relax, hx⟩ := ha.relaxes hr
  obtain ⟨width, hd⟩ := h.restricts hr
  have hstart := Lockstep.start_eq_ok_iff.mpr ⟨infer, relax, _, hi, hx, hd, rfl⟩
  obtain ⟨-, -, b, -, -, hb⟩ := Bound.compute_total best hstart fun k L hrun hv => by
    obtain ⟨hne, -⟩ := Lockstep.verdict_eq_none hv
    obtain ⟨t, ht⟩ := List.exists_mem_of_ne_nil _ hne
    have hle := h.level_le ((holds_of_run h ha hr hrun).levels t ht)
    have htall := h.tall
    exact ⟨by omega, exists_advances h ha hr hrun hv⟩
  exact ⟨b, hb⟩

open Classical in
/-- The number of levels below the deepest one a state is met on. -/
noncomputable def rank (level : Nat → σ → Prop) (depth : Nat) (s : σ) : Nat :=
  depth - Nat.findGreatest (fun n => level n s) depth

theorem rank_lt (h : Levelled D level depth offers) {s t : σ} (hs : level n s)
    (ht : ∀ n, level n s → level (n + 1) t) : rank level depth t < rank level depth s := by
  classical
  unfold rank
  have hspec := Nat.findGreatest_spec (P := fun n => level n s) (h.level_le hs) hs
  have hnext := ht _ hspec
  have hle := h.level_le hnext
  have := Nat.le_findGreatest (P := fun n => level n t) hle hnext
  omega

/-- **Bounding and branching on a levelled domain always answer**, one level further down each
time. -/
theorem answering (h : Levelled D level depth offers) (ha : Admissible D level depth offers) :
    D.Answering (fun s => ∃ n, level n s) (rank level depth) where
  bounds s best := fun ⟨_, hs⟩ => exists_bound h ha hs best
  branches s best b := fun ⟨n, hs⟩ hb hl best' => by
    obtain ⟨k, L, hrun, hv⟩ := Bound.compute_eq_ok hb
    have hpasses := passes_of_relaxed h ha hs hrun hv hl
    obtain ⟨next, hnext⟩ := h.expands best' hs hpasses
    exact ⟨next, hnext, fun t ht => rank_lt h hs fun n hn => h.leads hn hpasses hnext ht⟩

end Levelled

end Fathom
