import Fathom.Proofs.Routing.Matching

/-!
# The tree of alternating paths

To place the row `i` is to grow a tree of alternating paths from the entry, which holds that row
(`Tree`). A reached column is tight with the row of the column before it; the slack of a column that
is not reached is the least reduced cost of an arc into it from a reached row. Each step looks at
the arcs of one more row (`Tree.extend`) and then moves the duals by the least slack (`Tree.lower`),
which makes the nearest column tight. The first step is the only one that may move them downwards:
only the entry is reached then.
-/

namespace Fathom.Routing.Assignment.Tableau

variable {costs : Array (Array Int)} {most base : Int} {i j r last : Nat} {t t' : Tableau}

/-- The columns `rest` lead from the column `j` back to the entry, along tight arcs. -/
inductive Path (costs : Array (Array Int)) (t : Tableau) : Nat → List Nat → Prop
  | entry : Path costs t 0 []
  | step {j r : Nat} {rest : List Nat} : 0 < j → j ∉ (t.column j).via :: rest →
      (t.column (t.column j).via).row = some r → reduced costs t r j = 0 →
      Path costs t (t.column j).via rest → Path costs t j ((t.column j).via :: rest)

/-- A path is kept if its columns keep their predecessors and their rows, and its arcs their reduced
costs. -/
theorem Path.congr {rest : List Nat} (h : Path costs t j rest)
    (hvia : ∀ a ∈ j :: rest, (t'.column a).via = (t.column a).via)
    (hrow : ∀ b ∈ rest, (t'.column b).row = (t.column b).row)
    (hreduced : ∀ a ∈ j :: rest, ∀ b ∈ rest, ∀ r, (t.column b).row = some r →
      reduced costs t' r a = reduced costs t r a) : Path costs t' j rest := by
  induction h with
  | entry => exact .entry
  | @step j r rest hpos hnew hr htight _ ih =>
    have hsame : (t'.column j).via = (t.column j).via := hvia j List.mem_cons_self
    have hrest : Path costs t' (t.column j).via rest :=
      ih (fun a ha => hvia a (List.mem_cons_of_mem _ ha))
        (fun b hb => hrow b (List.mem_cons_of_mem _ hb))
        fun a ha b hb => hreduced a (List.mem_cons_of_mem _ ha) b (List.mem_cons_of_mem _ hb)
    have htight' := hreduced j List.mem_cons_self _ List.mem_cons_self r hr
    have hr' := (hrow _ List.mem_cons_self).trans hr
    rw [← hsame] at hnew hrest hr' ⊢
    exact .step hpos hnew hr' (htight'.trans htight) hrest

/-- The tree of the row `i`; the dual of the entry was `base` when it was entered. -/
structure Tree (costs : Array (Array Int)) (i : Nat) (base : Int) (t : Tableau) : Prop where
  matching : Matching costs i t
  entry : ReachedBy t.columns 0 i
  entry_dual : (t.column 0).dual = base - t.rowDual i
  /-- Rows that have not been entered have dual zero. -/
  fresh : ∀ {r}, i < r → t.rowDual r = 0
  row : ∀ {j}, (t.column j).reached = true → ∃ r, (t.column j).row = some r
  slack_le : ∀ {a r j}, ReachedBy t.columns a r → 0 < j → j ≤ costs.size →
    (t.column j).reached = false → (t.column j).slack ≤ reduced costs t r j
  slack_eq : ∀ {j}, 0 < j → j ≤ costs.size → (t.column j).reached = false →
    ∃ r, ReachedBy t.columns (t.column j).via r ∧ (t.column j).slack = reduced costs t r j
  path : ∀ {j}, (t.column j).reached = true →
    ∃ rest, Path costs t j rest ∧ ∀ a ∈ rest, (t.column a).reached = true

namespace Tree

/-- The entry is reached from the beginning. -/
theorem pos_of_not_reached (h : Tree costs i base t) (hj : (t.column j).reached = false) :
    0 < j := by
  refine Nat.pos_of_ne_zero fun h0 => ?_
  rw [h0, column, h.entry.1] at hj
  cases hj

/-- The row of a reached column is the entering row or was placed before. -/
theorem row_le (h : Tree costs i base t) (hj : ReachedBy t.columns j r) : r ≤ i := by
  rcases Nat.eq_zero_or_pos j with rfl | hpos
  · have := hj.2.symm.trans h.entry.2
    exact Nat.le_of_eq (Option.some.inj this)
  · exact Nat.le_of_lt (h.matching.row_lt hpos hj.2)

/-- No two reached columns have the same row. -/
theorem reachedBy_inj (h : Tree costs i base t) {j' : Nat} (hj : ReachedBy t.columns j r)
    (hj' : ReachedBy t.columns j' r) : j = j' := by
  have hentry : ∀ {a}, 0 < a → ReachedBy t.columns a r → r ≠ i := fun ha hr =>
    Nat.ne_of_lt (h.matching.row_lt ha hr.2)
  have hzero : ∀ {a}, a = 0 → ReachedBy t.columns a r → r = i := by
    intro a ha hr
    subst ha
    exact Option.some.inj (hr.2.symm.trans h.entry.2)
  rcases Nat.eq_zero_or_pos j with h0 | hpos <;> rcases Nat.eq_zero_or_pos j' with h0' | hpos'
  · rw [h0, h0']
  · exact absurd (hzero h0 hj) (hentry hpos' hj')
  · exact absurd (hzero h0' hj') (hentry hpos hj)
  · exact h.matching.injective hpos hpos' hj.2 hj'.2

/-- A column that is free is not reached. -/
theorem not_reached_of_free (h : Tree costs i base t) (hj : (t.column j).row = none) :
    (t.column j).reached = false := by
  refine Bool.eq_false_iff.mpr fun hr => ?_
  obtain ⟨r, hrow⟩ := h.row hr
  rw [hj] at hrow
  cases hrow

/-- A column of slack zero that is not reached yet ends a path of reached columns. -/
theorem path_new (h : Tree costs i base t) (hpos : 0 < last) (hlast : last ≤ costs.size)
    (hnew : (t.column last).reached = false) (hslack : (t.column last).slack = 0) :
    ∃ rest, Path costs t last rest ∧ ∀ a ∈ rest, (t.column a).reached = true := by
  obtain ⟨r, hr, htight⟩ := h.slack_eq hpos hlast hnew
  obtain ⟨rest, hp, hrest⟩ := h.path hr.1
  have hall : ∀ a ∈ (t.column last).via :: rest, (t.column a).reached = true :=
    List.forall_mem_cons.mpr ⟨hr.1, hrest⟩
  refine ⟨_, .step hpos (fun hmem => ?_) hr.2 (htight.symm.trans hslack) hp, hall⟩
  have := hall last hmem
  rw [hnew] at this
  cases this

/-- The column of a placed row is reached if the row is. -/
theorem reached_iff (h : Tree costs i base t) (hj : 0 < j) (hr : (t.column j).row = some r) :
    (∃ a, ReachedBy t.columns a r) ↔ (t.column j).reached = true := by
  constructor
  · rintro ⟨a, ha⟩
    rcases Nat.eq_zero_or_pos a with rfl | hpos
    · have := Option.some.inj (ha.2.symm.trans h.entry.2)
      have := h.matching.row_lt hj hr
      omega
    · have := h.matching.injective hj hpos hr ha.2
      exact this ▸ ha.1
  · exact fun hreached => ⟨j, hreached, hr⟩

end Tree

/-! ## Moving the duals -/

/-- The duals have been moved by `delta`. -/
structure Lowered (delta : Int) (t t' : Tableau) : Prop where
  columns : t'.columns = t.columns.map (lowered delta)
  raised : Raised t.columns delta t.rowDuals t.columns.length t'.rowDuals

namespace Lowered

variable {delta : Int}

theorem column_eq (h : Lowered delta t t') (hj : j < t.columns.length) :
    t'.column j = lowered delta (t.column j) := by
  rw [column, h.columns, nth_map _ hj, column]

theorem length (h : Lowered delta t t') : t'.columns.length = t.columns.length := by
  rw [h.columns, List.length_map]

/-- Only duals and slacks change. -/
theorem column (h : Lowered delta t t') (j : Nat) :
    (t'.column j).row = (t.column j).row ∧ (t'.column j).via = (t.column j).via ∧
      (t'.column j).reached = (t.column j).reached := by
  by_cases hj : j < t.columns.length
  · rw [h.column_eq hj, lowered]
    split <;> exact ⟨rfl, rfl, rfl⟩
  · have hle : t.columns.length ≤ j := Nat.le_of_not_lt hj
    have hle' : t'.columns.length ≤ j := h.length ▸ hle
    rw [Tableau.column, Tableau.column, nth_of_le hle, nth_of_le hle']
    exact ⟨rfl, rfl, rfl⟩

theorem dual_of_reached (h : Lowered delta t t') (hj : (t.column j).reached = true) :
    (t'.column j).dual = (t.column j).dual - delta := by
  rw [h.column_eq (lt_of_reached hj), lowered, if_pos hj]

theorem dual_of_not_reached (h : Lowered delta t t') (hj : (t.column j).reached = false) :
    (t'.column j).dual = (t.column j).dual := by
  by_cases hlt : j < t.columns.length
  · rw [h.column_eq hlt, lowered, hj]
    rfl
  · have hle : t.columns.length ≤ j := Nat.le_of_not_lt hlt
    rw [Tableau.column, Tableau.column, nth_of_le hle, nth_of_le (h.length ▸ hle)]

theorem slack (h : Lowered delta t t') (hlt : j < t.columns.length)
    (hj : (t.column j).reached = false) : (t'.column j).slack = (t.column j).slack - delta := by
  rw [h.column_eq hlt, lowered, hj]
  rfl

theorem reachedBy_iff (h : Lowered delta t t') :
    ReachedBy t'.columns j r ↔ ReachedBy t.columns j r := by
  obtain ⟨hrow, -, hreached⟩ := h.column j
  simp only [Tableau.column] at hrow hreached
  rw [ReachedBy, ReachedBy, hrow, hreached]

theorem rowDual_of_reached (h : Lowered delta t t') (hj : ReachedBy t.columns j r) :
    t'.rowDual r = t.rowDual r + delta :=
  h.raised.raised j r (lt_of_reached hj.1) hj

theorem rowDual_of_not_reached (h : Lowered delta t t') (hr : ∀ j, ¬ReachedBy t.columns j r) :
    t'.rowDual r = t.rowDual r :=
  h.raised.kept r fun j _ => hr j

/-- Reduced costs between reached rows and columns stay as they are. -/
theorem reduced_both (h : Lowered delta t t') {a : Nat} (ha : ReachedBy t.columns a r)
    (hj : (t.column j).reached = true) : reduced costs t' r j = reduced costs t r j := by
  rw [reduced, reduced, h.rowDual_of_reached ha, h.dual_of_reached hj]
  omega

/-- An arc that leaves the tree gets cheaper. -/
theorem reduced_row (h : Lowered delta t t') {a : Nat} (ha : ReachedBy t.columns a r)
    (hj : (t.column j).reached = false) :
    reduced costs t' r j = reduced costs t r j - delta := by
  rw [reduced, reduced, h.rowDual_of_reached ha, h.dual_of_not_reached hj]
  omega

/-- An arc into the tree gets dearer. -/
theorem reduced_column (h : Lowered delta t t') (hr : ∀ a, ¬ReachedBy t.columns a r)
    (hj : (t.column j).reached = true) :
    reduced costs t' r j = reduced costs t r j + delta := by
  rw [reduced, reduced, h.rowDual_of_not_reached hr, h.dual_of_reached hj]
  omega

theorem reduced_neither (h : Lowered delta t t') (hr : ∀ a, ¬ReachedBy t.columns a r)
    (hj : (t.column j).reached = false) : reduced costs t' r j = reduced costs t r j := by
  rw [reduced, reduced, h.rowDual_of_not_reached hr, h.dual_of_not_reached hj]

/-- Paths in the tree are kept. -/
theorem path (h : Lowered delta t t') {rest : List Nat} (hp : Path costs t j rest)
    (hreached : ∀ a ∈ j :: rest, (t.column a).reached = true) : Path costs t' j rest := by
  refine hp.congr (fun a _ => (h.column a).2.1) (fun b _ => (h.column b).1) fun a ha b hb r hr => ?_
  exact h.reduced_both ⟨hreached b (List.mem_cons_of_mem _ hb), hr⟩ (hreached a ha)

end Lowered

namespace Tree

/-- The duals may be moved by `delta`: not past any slack, and not downwards unless the entry alone
is reached. -/
structure Allows (costs : Array (Array Int)) (i : Nat) (t : Tableau) (delta : Int) : Prop where
  le_slack : ∀ {j}, 0 < j → j ≤ costs.size → (t.column j).reached = false →
    delta ≤ (t.column j).slack
  nonneg : ∀ {j}, 0 < j → (t.column j).reached = true → 0 ≤ delta
  feasible : ∀ {j}, 0 < j → j ≤ costs.size → (t.column j).reached = true →
    0 ≤ reduced costs t i j

variable {delta : Int}

/-- An arc into a column that keeps its distance from the tree stays feasible. -/
theorem feasible_row_lower (h : Tree costs i base t) (ha : Allows costs i t delta)
    (hl : Lowered delta t t') {a : Nat} (hr : ReachedBy t.columns a r) (hj : 0 < j)
    (hle : j ≤ costs.size) (hreached : (t.column j).reached = false) :
    0 ≤ reduced costs t' r j := by
  have hslack := h.slack_le hr hj hle hreached
  have hdelta := ha.le_slack hj hle hreached
  rw [hl.reduced_row hr hreached]
  omega

/-- **Moving the duals keeps the matching.** -/
theorem matching_lower (h : Tree costs i base t) (ha : Allows costs i t delta)
    (hl : Lowered delta t t') : Matching costs i t' := by
  have hrow : ∀ j, (t'.column j).row = (t.column j).row := fun j => (hl.column j).1
  refine ⟨hl.raised.length.trans h.matching.rowDuals, hl.length.trans h.matching.columns,
    fun hj hr => ?_, fun hj hj' hr hr' => ?_, fun hr => ?_, fun {j r} hj hr => ?_,
    fun {r j} hr hj hle => ?_, fun {j} hj => ?_, fun {j} hj hr => ?_⟩
  · exact h.matching.row_lt hj (hrow _ ▸ hr)
  · exact h.matching.injective hj hj' (hrow _ ▸ hr) (hrow _ ▸ hr')
  · obtain ⟨j, hj, hr⟩ := h.matching.onto hr
    exact ⟨j, hj, (hrow j).trans hr⟩
  · rw [hrow] at hr
    have htight := h.matching.tight hj hr
    cases hreached : (t.column j).reached with
    | true => rw [hl.reduced_both ⟨hreached, hr⟩ hreached, htight]
    | false =>
      rw [hl.reduced_neither (fun a ha => ?_) hreached, htight]
      have := (h.reached_iff hj hr).mp ⟨a, ha⟩
      rw [hreached] at this
      cases this
  · have hfeasible := h.matching.feasible hr hj hle
    by_cases hin : ∃ a, ReachedBy t.columns a r
    · obtain ⟨a, hin⟩ := hin
      cases hreached : (t.column j).reached with
      | true => rwa [hl.reduced_both hin hreached]
      | false => exact h.feasible_row_lower ha hl hin hj hle hreached
    · have hout : ∀ a, ¬ReachedBy t.columns a r := fun a ha => hin ⟨a, ha⟩
      cases hreached : (t.column j).reached with
      | true =>
        have := ha.nonneg hj hreached
        rw [hl.reduced_column hout hreached]
        omega
      | false => rwa [hl.reduced_neither hout hreached]
  · have hdual := h.matching.dual_nonpos hj
    cases hreached : (t.column j).reached with
    | true =>
      have := ha.nonneg hj hreached
      rw [hl.dual_of_reached hreached]
      omega
    | false => rwa [hl.dual_of_not_reached hreached]
  · rw [hrow] at hr
    rw [hl.dual_of_not_reached (h.not_reached_of_free hr)]
    exact h.matching.free hj hr

/-- No reduced cost of the entering row is negative afterwards. -/
theorem feasible_lower (h : Tree costs i base t) (ha : Allows costs i t delta)
    (hl : Lowered delta t t') (hj : 0 < j) (hle : j ≤ costs.size) : 0 ≤ reduced costs t' i j := by
  cases hreached : (t.column j).reached with
  | true =>
    rw [hl.reduced_both h.entry hreached]
    exact ha.feasible hj hle hreached
  | false => exact h.feasible_row_lower ha hl h.entry hj hle hreached

/-- **Moving the duals keeps the tree.** -/
theorem lower (h : Tree costs i base t) (ha : Allows costs i t delta)
    (hl : Lowered delta t t') : Tree costs i base t' := by
  have hreached : ∀ j, (t'.column j).reached = (t.column j).reached := fun j => (hl.column j).2.2
  have hlt : ∀ {j}, j ≤ costs.size → j < t.columns.length := by
    intro j hle
    rw [h.matching.columns]
    omega
  refine ⟨h.matching_lower ha hl, hl.reachedBy_iff.mpr h.entry, ?_, fun {r} hr => ?_,
    fun {j} hj => ?_, fun {a r j} hr hj hle hn => ?_, fun {j} hj hle hn => ?_, fun {j} hj => ?_⟩
  · rw [hl.dual_of_reached h.entry.1, hl.rowDual_of_reached h.entry, h.entry_dual]
    omega
  · have hout : ∀ a, ¬ReachedBy t.columns a r := by
      intro a ha
      have := h.row_le ha
      omega
    rw [hl.rowDual_of_not_reached hout]
    exact h.fresh hr
  · obtain ⟨r, hr⟩ := h.row (hreached j ▸ hj)
    exact ⟨r, (hl.column j).1.trans hr⟩
  · rw [hreached] at hn
    have hr := hl.reachedBy_iff.mp hr
    have := h.slack_le hr hj hle hn
    rw [hl.slack (hlt hle) hn, hl.reduced_row hr hn]
    omega
  · rw [hreached] at hn
    obtain ⟨r, hr, hslack⟩ := h.slack_eq hj hle hn
    refine ⟨r, ?_, ?_⟩
    · rw [(hl.column j).2.1]
      exact hl.reachedBy_iff.mpr hr
    · rw [hl.slack (hlt hle) hn, hl.reduced_row hr hn, hslack]
  · rw [hreached] at hj
    obtain ⟨rest, hp, hrest⟩ := h.path hj
    exact ⟨rest, hl.path hp (List.forall_mem_cons.mpr ⟨hj, hrest⟩), fun a ha =>
      (hreached a).trans (hrest a ha)⟩

end Tree

end Fathom.Routing.Assignment.Tableau
