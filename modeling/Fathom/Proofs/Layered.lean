import Fathom.Proofs.Levelled

/-!
# Layered domains

A domain is *layered* below a root when its solutions lie at one depth, and the hints that the
lockstep passes on to expansions only hide what does not improve on the incumbent. The hints
themselves come out of the lockstep, so the states a search may come to (`Reached`) are defined by
what it does. What a state offers is told by its tree without hints (`Domain.Solution`).

Results:
* `Layered.levelled`: a layered domain is levelled, with the number of steps from the root for the
  level. Costs need not be non-negative for that;
* `Layered.of_plain`: a domain that takes no hints is layered as soon as its tree is;
* `admissible_of_bare`: a domain without inference and relaxation diagrams is admissible;
* `Layered.admissible_of_surveys`: so is one that takes no hints, if these diagrams keep all states.
-/

namespace Fathom

variable {σ δ : Type}

/-! ## Solutions -/

namespace Domain

/-- `x` is a solution in the tree below `s`. -/
def Solution (D : Domain σ δ) (s x : σ) : Prop := ∃ n, Steps D.Precedes n s x ∧ D.solved x = true

/-- A solution of cost `c` lies below `s`. -/
def Offers (D : Domain σ δ) (s : σ) (c : Int) : Prop := ∃ x, D.Solution s x ∧ D.cost x = c

/-- `x` is a cheapest solution below `s`. -/
def Optimum (D : Domain σ δ) (s x : σ) : Prop :=
  D.Solution s x ∧ ∀ y, D.Solution s y → D.cost x ≤ D.cost y

variable {D : Domain σ δ} {s t x : σ}

theorem Solution.head (h : D.Precedes s t) (hx : D.Solution t x) : D.Solution s x := by
  obtain ⟨n, hn, hs⟩ := hx
  exact ⟨n + 1, .head h hn, hs⟩

/-- A state that is not a solution offers what its successors offer. -/
theorem Solution.exists_of_not_solved (hx : D.Solution s x) (hs : D.solved s = false) :
    ∃ t, D.Precedes s t ∧ D.Solution t x := by
  obtain ⟨n, hn, hsolved⟩ := hx
  cases hn with
  | refl => rw [hs] at hsolved; cases hsolved
  | head hst hn => exact ⟨_, hst, _, hn, hsolved⟩

end Domain

/-! ## Layered domains -/

/-- A search from `root` may come to `s`, which lies `n` steps below: without hints, or with those
of the lockstep of a state that it comes to. -/
inductive Reached (D : Domain σ δ) (root : σ) : Nat → σ → Prop
  | root : Reached D root 0 root
  | plain {n : Nat} {s t : σ} : Reached D root n s → D.Precedes s t → Reached D root (n + 1) t
  | hinted {n m k : Nat} {s r t : σ} {best best' : Option Int} {L : Lockstep σ δ} {next : List σ} :
      Reached D root n s → Reached D root m r → Lockstep.Run D best r k L →
        L.verdict D best r = none → (s = r ∨ s ∈ L.restrict.layer.states) →
        D.expand s (L.note D).inferenceDual best' = .ok next → t ∈ next →
        Reached D root (n + 1) t

/-- A state that is reached may be expanded with these hints: with none, or with a dual that the
lockstep passes on and any incumbent. -/
def Reached.Hints (D : Domain σ δ) (root s : σ) (dual : Option δ) (best : Option Int) : Prop :=
  (dual = none ∧ best = none) ∨ Lockstep.Passes D (Reached D root) s dual

theorem Reached.step {D : Domain σ δ} {root s t : σ} {n : Nat} {dual : Option δ}
    {best : Option Int} {next : List σ} (h : Reached D root n s)
    (hh : Reached.Hints D root s dual best) (he : D.expand s dual best = .ok next)
    (ht : t ∈ next) : Reached D root (n + 1) t := by
  rcases hh with ⟨rfl, rfl⟩ | ⟨best', r, m, k, L, hr, hrun, hv, hmem, rfl⟩
  · exact .plain h ⟨next, he, ht⟩
  · exact .hinted h hr hrun hv hmem he ht

theorem Reached.of_steps {D : Domain σ δ} {root s t : σ} {n k : Nat} (h : Reached D root n s)
    (hs : Steps D.Precedes k s t) : Reached D root (n + k) t :=
  hs.invariant (P := fun k t => Reached D root (n + k) t) h fun _ _ _ ht htu => ht.plain htu

/-- **The contract of a domain whose solutions all lie `depth` steps below `root`.** -/
structure Layered (D : Domain σ δ) (root : σ) (depth : Nat) : Prop where
  answers : ∀ {n s dual best}, Reached D root n s → Reached.Hints D root s dual best →
    ∃ next, D.expand s dual best = .ok next
  /-- Costs never decrease along an expansion. -/
  mono : ∀ {n s dual best next t}, Reached D root n s → Reached.Hints D root s dual best →
    D.expand s dual best = .ok next → t ∈ next → D.cost s ≤ D.cost t
  /-- The solved states are those that lie `depth` steps below the root. -/
  solved_iff : ∀ {n s}, Reached D root n s → (D.solved s = true ↔ n = depth)
  /-- Solved states have no successors. -/
  ends : ∀ {n s dual best next}, Reached D root n s → Reached.Hints D root s dual best →
    D.expand s dual best = .ok next → D.solved s = true → next = []
  /-- A successor is omitted only if no solution below it improves on the incumbent. -/
  omits : ∀ {n s dual best next t x}, Reached D root n s →
    Lockstep.Passes D (Reached D root) s dual →
    D.expand s dual best = .ok next → D.Precedes s t → t ∉ next → D.Solution t x →
      Cost.beats best (D.cost x) = false
  /-- Hints add no new solution. -/
  adds : ∀ {n s dual best next t x}, Reached D root n s →
    Lockstep.Passes D (Reached D root) s dual →
    D.expand s dual best = .ok next → t ∈ next → D.Solution t x → D.Solution s x
  /-- Restrictions start at the state itself and keep the cheapest states, at any width. -/
  restricts : ∀ {n s}, Reached D root n s →
    ∃ width, D.restrict s = .ok (some (Diagram.root s [Merger.cheapest D.cost] width))
  tall : depth < D.height

namespace Layered

variable {D : Domain σ δ} {root : σ} {depth : Nat}

theorem level_le (h : Layered D root depth) {n : Nat} {s : σ} (hs : Reached D root n s) :
    n ≤ depth := by
  have hstep : ∀ {n s dual best next t}, Reached D root n s → n ≤ depth →
      Reached.Hints D root s dual best → D.expand s dual best = .ok next → t ∈ next →
        n + 1 ≤ depth := by
    intro n s dual best next t hs hle hh he ht
    refine Nat.lt_of_le_of_ne hle fun hn => ?_
    rw [h.ends hs hh he ((h.solved_iff hs).mpr hn)] at ht
    cases ht
  induction hs with
  | root => exact Nat.zero_le _
  | plain hs hst ih =>
    obtain ⟨next, he, ht⟩ := hst
    exact hstep hs ih (.inl ⟨rfl, rfl⟩) he ht
  | hinted hs hr hrun hv hmem he ht ih _ =>
    exact hstep hs ih (.inr ⟨_, _, _, _, _, hr, hrun, hv, hmem, rfl⟩) he ht

/-- A solution costs at least what any state above it costs. -/
theorem cost_le (h : Layered D root depth) {n : Nat} {s x : σ} (hs : Reached D root n s)
    (hx : D.Solution s x) : D.cost s ≤ D.cost x := by
  obtain ⟨m, hm, -⟩ := hx
  induction hm generalizing n with
  | refl => exact Int.le_refl _
  | head hst _ ih =>
    obtain ⟨next, he, ht⟩ := hst
    exact Int.le_trans (h.mono hs (.inl ⟨rfl, rfl⟩) he ht) (ih (.plain hs ⟨next, he, ht⟩))

/-- What lies below a state of the search lies below the root. -/
theorem solution_root (h : Layered D root depth) {n : Nat} {s x : σ} (hs : Reached D root n s)
    (hx : D.Solution s x) : D.Solution root x := by
  induction hs with
  | root => exact hx
  | plain _ hst ih => exact ih (hx.head hst)
  | hinted hs hr hrun hv hmem he ht ih _ =>
    exact ih (h.adds hs ⟨_, _, _, _, _, hr, hrun, hv, hmem, rfl⟩ he ht hx)

/-- **A layered domain is levelled.** -/
theorem levelled (h : Layered D root depth) :
    Levelled D (Reached D root) depth D.Offers where
  level_le := h.level_le
  solved_iff := h.solved_iff
  cost_le hs hc := by
    obtain ⟨x, hx, rfl⟩ := hc
    exact h.cost_le hs hx
  restricts := h.restricts
  expands _ hs hp := h.answers hs (.inr hp)
  leads hs hp he ht := hs.step (.inr hp) he ht
  keeps := by
    rintro n s dual best next _ hs hn hp he ⟨x, hx, rfl⟩ hb
    have hunsolved : D.solved s = false := by
      refine Bool.eq_false_iff.mpr fun hsolved => ?_
      have := (h.solved_iff hs).mp hsolved
      omega
    obtain ⟨t, hst, hx⟩ := hx.exists_of_not_solved hunsolved
    by_cases ht : t ∈ next
    · exact ⟨t, ht, x, hx, rfl⟩
    · rw [h.omits hs hp he hst ht hx] at hb
      cases hb
  tall := h.tall

end Layered

/-! ## Domains that take no hints -/

/-- Where hints change nothing, a search comes to the states of the tree. -/
theorem Reached.steps {D : Domain σ δ} {root s : σ} {n : Nat}
    (hplain : ∀ s dual best, D.expand s dual best = D.expand s none none)
    (h : Reached D root n s) : Steps D.Precedes n root s := by
  induction h with
  | root => exact .refl root
  | plain _ hst ih => exact ih.tail hst
  | hinted _ _ _ _ _ he ht ih _ => exact ih.tail ⟨_, hplain _ _ _ ▸ he, ht⟩

/-- **A domain that takes no hints is layered** as soon as its tree is. -/
theorem Layered.of_plain {D : Domain σ δ} {root : σ} {depth : Nat}
    (hplain : ∀ s dual best, D.expand s dual best = D.expand s none none)
    (htree : ∀ n s, Steps D.Precedes n root s →
      (D.solved s = true ↔ n = depth) ∧
      (∃ next, D.expand s none none = .ok next ∧ (∀ t ∈ next, D.cost s ≤ D.cost t) ∧
        (D.solved s = true → next = [])) ∧
      ∃ width, D.restrict s = .ok (some (Diagram.root s [Merger.cheapest D.cost] width)))
    (htall : depth < D.height) : Layered D root depth where
  answers {_ s dual best} hs _ := by
    obtain ⟨-, ⟨next, he, -⟩, -⟩ := htree _ _ (hs.steps hplain)
    exact ⟨next, (hplain s dual best).trans he⟩
  mono {_ s dual best _ t} hs _ he ht := by
    obtain ⟨-, ⟨next, he', hmono, -⟩, -⟩ := htree _ _ (hs.steps hplain)
    rw [hplain, he', Except.ok.injEq] at he
    exact hmono t (he ▸ ht)
  solved_iff hs := (htree _ _ (hs.steps hplain)).1
  ends {_ s dual best _} hs _ he hsolved := by
    obtain ⟨-, ⟨next, he', -, hends⟩, -⟩ := htree _ _ (hs.steps hplain)
    rw [hplain, he', Except.ok.injEq] at he
    exact he ▸ hends hsolved
  omits {_ s dual best next t _} _ _ he hst hn _ := by
    obtain ⟨next', he', ht⟩ := hst
    rw [hplain, he', Except.ok.injEq] at he
    exact absurd (he ▸ ht) hn
  adds {_ s dual best next t _} _ _ he ht hx :=
    hx.head ⟨next, (hplain s dual best).symm.trans he, ht⟩
  restricts hs := (htree _ _ (hs.steps hplain)).2.2
  tall := htall

/-! ## Domains without inference and relaxation -/

/-- The lockstep has no inference and no relaxation diagram from beginning to end. -/
theorem bare_of_run {D : Domain σ δ} {best : Option Int} {r : σ} {k : Nat} {L : Lockstep σ δ}
    (hi : D.infer r = .ok none) (hx : D.relax r = .ok none) (h : Lockstep.Run D best r k L) :
    L.infer = none ∧ L.relax = none := by
  induction h with
  | start hs =>
    obtain ⟨infer, relax, restrict, hi', hx', -, rfl⟩ := Lockstep.start_eq_ok_iff.mp hs
    rw [hi, Except.ok.injEq] at hi'
    rw [hx, Except.ok.injEq] at hx'
    exact ⟨hi'.symm, hx'.symm⟩
  | step _ _ hadv ih => exact ⟨hadv.infer_eq_none ih.1, hadv.relax_eq_none ih.2⟩

/-- **A domain without inference and relaxation diagrams is admissible.** -/
theorem admissible_of_bare {D : Domain σ δ} {level : Nat → σ → Prop} {depth : Nat}
    {offers : σ → Int → Prop} (hi : ∀ {n s}, level n s → D.infer s = .ok none)
    (hx : ∀ {n s}, level n s → D.relax s = .ok none) : Admissible D level depth offers := by
  have hnone : ∀ {n r best k L}, level n r → Lockstep.Run D best r k L →
      L.infer = none ∧ L.relax = none := fun hr hrun => bare_of_run (hi hr) (hx hr) hrun
  constructor
  · exact fun hr => ⟨none, hi hr⟩
  · exact fun hr => ⟨none, hx hr⟩
  · intro n r best k L d c hr hrun _ _ _ hd
    rw [(hnone hr hrun).1] at hd
    cases hd
  · intro n r best k L d c hr hrun _ _ _ hd
    rw [(hnone hr hrun).2] at hd
    cases hd
  · intro n r best k L d hr hrun _ hd
    rw [(hnone hr hrun).1] at hd
    cases hd
  · intro n r best k L d hr hrun _ hd
    rw [(hnone hr hrun).2] at hd
    cases hd

/-! ## Diagrams that keep all states -/

/-- The diagram keeps all states, and its layer holds those that lie `k` steps below `root`. -/
structure Diagram.Spans (S : Space σ δ) (root : σ) (k : Nat) (d : Diagram σ) : Prop where
  unbounded : d.Unbounded
  mem_iff : ∀ t, t ∈ d.layer.states ↔ Steps S.Precedes k root t

namespace Diagram.Spans

section Space

variable {S : Space σ δ} {r : σ} {d next : Diagram σ} {k : Nat}

theorem root (mergers : List (Merger σ)) : Spans S r 0 (Diagram.root r mergers 0) where
  unbounded := rfl
  mem_iff t := by
    constructor
    · intro ht
      rw [List.mem_singleton.mp ht]
      exact .refl r
    · rintro ⟨⟩
      exact List.mem_singleton_self r

/-- **The next layer lies one step further down**, as hints change nothing. -/
theorem advance (hplain : ∀ s dual best, S.expand s dual best = S.expand s none none)
    (h : Spans S r k d) {dual : Option δ} {best : Option Int}
    (hnext : (d.advance S dual best).result = .ok next) : Spans S r (k + 1) next := by
  obtain ⟨hunbounded, hmem⟩ := h.unbounded.advance hnext
  refine ⟨hunbounded, fun t => ?_⟩
  rw [hmem, Steps.succ_iff]
  refine exists_congr fun s => and_congr (h.mem_iff s) ?_
  rw [hplain]
  rfl

end Space

variable {D : Domain σ δ} {root r : σ} {depth n k : Nat} {d : Diagram σ}

/-- Down to the depth of the solutions, the layer has a state that costs no more than any of
them. -/
theorem exists_best_le (h : Spans D.toSpace r k d) (hD : Layered D root depth)
    (hr : Reached D root n r) (hk : n + k ≤ depth) {c : Int} (hc : D.Offers r c) :
    ∃ a, d.layer.best D.cost = some a ∧ D.cost a ≤ c := by
  obtain ⟨x, ⟨m, hm, hsolved⟩, rfl⟩ := hc
  have hdepth : n + m = depth := (hD.solved_iff (hr.of_steps hm)).mp hsolved
  -- the solution lies below some state of the layer
  obtain ⟨rest, rfl⟩ := Nat.exists_eq_add_of_le (show k ≤ m by omega)
  obtain ⟨t, ht, hx⟩ := hm.exists_add
  have hmem := (h.mem_iff t).mpr ht
  obtain ⟨a, ha⟩ := Lockstep.exists_best D.cost (List.ne_nil_of_mem hmem)
  exact ⟨a, ha, Int.le_trans (Layer.cost_best_le ha t hmem)
    (hD.cost_le (hr.of_steps ht) ⟨rest, hx, hsolved⟩)⟩

theorem advance_total (h : Spans D.toSpace r k d) (hD : Layered D root depth)
    (hplain : ∀ s dual best, D.expand s dual best = D.expand s none none)
    (hr : Reached D root n r) (dual : Option δ) (best : Option Int) :
    ∃ next, (d.advance D.toSpace dual best).result = .ok next := by
  refine h.unbounded.advance_total fun s hs => ?_
  obtain ⟨next, he⟩ := hD.answers (hr.of_steps ((h.mem_iff s).mp hs)) (.inl ⟨rfl, rfl⟩)
  exact ⟨next, (hplain s dual best).trans he⟩

end Diagram.Spans

/-- The inference and the relaxation diagram of a state keep all states below it. -/
def Domain.Surveys (D : Domain σ σ) (r : σ) : Prop :=
  ∃ mergers mergers', D.infer r = .ok (some (Diagram.root r mergers 0)) ∧
    D.relax r = .ok (some (Diagram.root r mergers' 0))

/-- They do so all along the lockstep. -/
theorem spans_of_run {D : Domain σ σ} {best : Option Int} {r : σ} {k : Nat} {L : Lockstep σ σ}
    (hplain : ∀ s dual best, D.expand s dual best = D.expand s none none)
    (hdual : D.dual = D.toSpace) (hr : D.Surveys r) (h : Lockstep.Run D best r k L) :
    (∀ d, L.infer = some d → d.Spans D.toSpace r k) ∧
      ∀ d, L.relax = some d → d.Spans D.toSpace r k := by
  induction h with
  | start hs =>
    obtain ⟨infer, relax, restrict, hi, hx, -, rfl⟩ := Lockstep.start_eq_ok_iff.mp hs
    obtain ⟨mergers, mergers', hi', hx'⟩ := hr
    cases hi'.symm.trans hi
    cases hx'.symm.trans hx
    refine ⟨?_, ?_⟩ <;>
    · rintro d ⟨⟩
      exact .root _
  | step _ _ hadv ih =>
    constructor
    · intro d' hd'
      obtain ⟨d, hd, hadvance⟩ := hadv.exists_infer hd'
      rw [hdual] at hadvance
      exact (ih.1 d hd).advance hplain hadvance
    · intro d' hd'
      obtain ⟨d, hd, hadvance⟩ := hadv.exists_relax hd'
      exact (ih.2 d hd).advance hplain hadvance

/-- **Diagrams that keep all states are admissible** in a layered domain that takes no hints. -/
theorem Layered.admissible_of_surveys {D : Domain σ σ} {root : σ} {depth : Nat}
    (hD : Layered D root depth)
    (hplain : ∀ s dual best, D.expand s dual best = D.expand s none none)
    (hdual : D.dual = D.toSpace) (hsurveys : ∀ {n r}, Reached D root n r → D.Surveys r) :
    Admissible D (Reached D root) depth D.Offers where
  infers hr := by
    obtain ⟨_, _, hi, -⟩ := hsurveys hr
    exact ⟨_, hi⟩
  relaxes hr := by
    obtain ⟨_, _, -, hx⟩ := hsurveys hr
    exact ⟨_, hx⟩
  infer_le hr hrun hk hc _ hd := by
    rw [hdual]
    exact ((spans_of_run hplain hdual (hsurveys hr) hrun).1 _ hd).exists_best_le hD hr hk hc
  relax_le hr hrun hk hc _ hd :=
    ((spans_of_run hplain hdual (hsurveys hr) hrun).2 _ hd).exists_best_le hD hr hk hc
  infer_advances hr hrun _ hd := by
    rw [hdual]
    exact ((spans_of_run hplain hdual (hsurveys hr) hrun).1 _ hd).advance_total hD hplain hr _ _
  relax_advances hr hrun _ hd :=
    ((spans_of_run hplain hdual (hsurveys hr) hrun).2 _ hd).advance_total hD hplain hr _ _

end Fathom
