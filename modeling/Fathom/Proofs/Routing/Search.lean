import Fathom.Proofs.Routing.Tree

/-!
# The search for a free column

A step of the search looks at the arcs of one more row (`Looked`) and then moves the duals. What it
keeps is `Searching`: a tree, no negative reduced cost of the entering row, and a nearest column
that is not reached yet but tight with the tree. Each step reaches one more column, so the search
ends; it ends at a free column.

Results:
* `Tree.extend`: looking at the arcs of the nearest column's row extends the tree;
* `Tree.widen`: moving the duals by the least slack answers, and leaves a search;
* `Visits.search_eq`: the search takes a step for each column that it visits (`Visits`);
* `Searching.visits`: it ends at a free column, and visits no column twice.
-/

namespace Fathom.Routing.Assignment.Tableau

variable {costs : Array (Array Int)} {most base : Int} {i j r last row : Nat} {t t' : Tableau}

/-! ## Looking at the arcs of a row -/

/-- The column `last` has been reached, and the arcs of `row` have been looked at. -/
structure Looked (costs : Array (Array Int)) (last row : Nat) (t t' : Tableau) : Prop where
  rowDuals : t'.rowDuals = t.rowDuals
  length : t'.columns.length = t.columns.length
  rows : ∀ j, (t'.column j).row = (t.column j).row
  dual : ∀ j, (t'.column j).dual = (t.column j).dual
  reached : ∀ j, (t'.column j).reached = true ↔ j = last ∨ (t.column j).reached = true
  via : ∀ {j}, (t'.column j).reached = true → (t'.column j).via = (t.column j).via
  slack : ∀ {j}, j < t.columns.length → (t'.column j).reached = false →
    reduced costs t row j < (t.column j).slack ∧
      (t'.column j).slack = reduced costs t row j ∧ (t'.column j).via = last ∨
    (t.column j).slack ≤ reduced costs t row j ∧
      (t'.column j).slack = (t.column j).slack ∧ (t'.column j).via = (t.column j).via

/-- The tableau once the column `last` is reached and the arcs of `row` have been looked at. -/
def look (costs : Array (Array Int)) (t : Tableau) (last row : Nat) : Tableau :=
  ⟨t.rowDuals, looked costs t last row⟩

theorem looked_look (hlast : last < t.columns.length) :
    Looked costs last row t (look costs t last row) := by
  have hcolumn : ∀ {j}, j < t.columns.length → (look costs t last row).column j =
      offered (cost costs row (j - 1)) (t.rowDuals.getD row 0) last
        (if j = last then { t.column j with reached := true } else t.column j) := fun hj =>
    nth_looked hlast hj
  have hout : ∀ {j}, ¬j < t.columns.length → (look costs t last row).column j = t.column j := by
    intro j hj
    have hle : t.columns.length ≤ j := Nat.le_of_not_lt hj
    rw [column, column, nth_of_le hle, nth_of_le (length_looked.symm ▸ hle)]
  have hreached : ∀ j, ((look costs t last row).column j).reached = true ↔
      j = last ∨ (t.column j).reached = true := by
    intro j
    by_cases hj : j < t.columns.length
    · rw [hcolumn hj, offered]
      by_cases hjl : j = last
      · simp [hjl]
      · cases hr : (t.column j).reached with
        | true => simp [hjl, hr]
        | false =>
          simp only [hjl, if_false, hr, Bool.false_eq_true, false_or, iff_false]
          split <;> simp [hr]
    · have hjl : j ≠ last := fun he => hj (he ▸ hlast)
      simp [hout hj, hjl]
  refine ⟨rfl, length_looked, fun j => ?_, fun j => ?_, hreached, fun {j} hr => ?_,
    fun {j} hj hn => ?_⟩
  · by_cases hj : j < t.columns.length
    · rw [hcolumn hj, offered]
      split_ifs <;> rfl
    · rw [hout hj]
  · by_cases hj : j < t.columns.length
    · rw [hcolumn hj, offered]
      split_ifs <;> rfl
    · rw [hout hj]
  · by_cases hj : j < t.columns.length
    · rw [hcolumn hj, offered]
      rcases (hreached j).mp hr with hjl | hr
      · simp [hjl]
      · by_cases hjl : j = last <;> simp [hjl, hr]
    · rw [hout hj]
  · have hkept : ¬(j = last ∨ (t.column j).reached = true) := by
      intro h
      rw [(hreached j).mpr h] at hn
      cases hn
    have hjl : j ≠ last := fun h => hkept (.inl h)
    have hr : (t.column j).reached = false := Bool.eq_false_iff.mpr fun h => hkept (.inr h)
    rw [hcolumn hj, if_neg hjl, offered, hr, if_neg Bool.false_ne_true]
    by_cases hlt : reduced costs t row j < (t.column j).slack
    · refine .inl ⟨hlt, ?_⟩
      rw [reduced, rowDual] at hlt ⊢
      rw [if_pos hlt]
      exact ⟨rfl, rfl⟩
    · refine .inr ⟨Int.not_lt.mp hlt, ?_⟩
      rw [reduced, rowDual] at hlt
      rw [if_neg hlt]
      exact ⟨rfl, rfl⟩

namespace Looked

theorem rowDual_eq (h : Looked costs last row t t') : t'.rowDual r = t.rowDual r := by
  rw [rowDual, h.rowDuals, rowDual]

/-- Looking moves no duals. -/
theorem reduced_eq (h : Looked costs last row t t') :
    reduced costs t' r j = reduced costs t r j := by
  rw [reduced, h.rowDual_eq, h.dual, reduced]

theorem matching (h : Looked costs last row t t') (hm : Matching costs i t) :
    Matching costs i t' :=
  hm.congr h.rowDuals h.length (fun j _ => h.rows j) fun j _ => h.dual j

theorem reachedBy_iff (h : Looked costs last row t t') :
    ReachedBy t'.columns j r ↔
      (j = last ∨ (t.column j).reached = true) ∧ (t.column j).row = some r := by
  rw [← h.reached, ← h.rows]
  rfl

/-- Paths of reached columns are kept. -/
theorem path (h : Looked costs last row t t') {rest : List Nat} (hp : Path costs t j rest)
    (hreached : ∀ a ∈ j :: rest, (t'.column a).reached = true) : Path costs t' j rest :=
  hp.congr (fun a ha => h.via (hreached a ha)) (fun b _ => h.rows b)
    fun _ _ _ _ _ _ => h.reduced_eq

end Looked

/-- Looking at the arcs of the row of the nearest column extends the tree by that column. -/
theorem Tree.extend (h : Tree costs i base t) (hl : Looked costs last row t t') (hpos : 0 < last)
    (hlast : last ≤ costs.size) (hnew : (t.column last).reached = false)
    (hslack : (t.column last).slack = 0) (hrow : (t.column last).row = some row) :
    Tree costs i base t' := by
  have hlt : ∀ {j}, j ≤ costs.size → j < t.columns.length := by
    intro j hle
    rw [h.matching.columns]
    omega
  have hout : ∀ {j}, (t'.column j).reached = false →
      j ≠ last ∧ (t.column j).reached = false := by
    intro j hn
    have hiff := hl.reached j
    rw [hn] at hiff
    exact ⟨fun he => Bool.false_ne_true (hiff.mpr (.inl he)),
      Bool.eq_false_iff.mpr fun hr => Bool.false_ne_true (hiff.mpr (.inr hr))⟩
  refine ⟨hl.matching h.matching, hl.reachedBy_iff.mpr ⟨.inr h.entry.1, h.entry.2⟩, ?_,
    fun {r} hr => ?_, fun {j} hj => ?_, fun {a r j} hr hj hle hn => ?_,
    fun {j} hj hle hn => ?_, fun {j} hj => ?_⟩
  · rw [hl.dual, hl.rowDual_eq, h.entry_dual]
  · rw [hl.rowDual_eq, h.fresh hr]
  · rw [hl.rows]
    rcases (hl.reached j).mp hj with rfl | hj
    · exact ⟨row, hrow⟩
    · exact h.row hj
  · obtain ⟨hnl, hn'⟩ := hout hn
    rw [hl.reduced_eq]
    obtain ⟨ha, hr⟩ := hl.reachedBy_iff.mp hr
    rcases ha with rfl | ha
    · cases hr.symm.trans hrow
      rcases hl.slack (hlt hle) hn with ⟨-, hs, -⟩ | ⟨hs', hs, -⟩
      · exact Int.le_of_eq hs
      · exact hs ▸ hs'
    · have hold := h.slack_le ⟨ha, hr⟩ hj hle hn'
      rcases hl.slack (hlt hle) hn with ⟨hs', hs, -⟩ | ⟨-, hs, -⟩
      · exact Int.le_of_lt (hs ▸ Int.lt_of_lt_of_le hs' hold)
      · exact hs ▸ hold
  · obtain ⟨hnl, hn'⟩ := hout hn
    rcases hl.slack (hlt hle) hn with ⟨-, hs, hvia⟩ | ⟨-, hs, hvia⟩
    · exact ⟨row, hl.reachedBy_iff.mpr ⟨.inl hvia, hvia ▸ hrow⟩, by rw [hl.reduced_eq, hs]⟩
    · obtain ⟨r, hr, hold⟩ := h.slack_eq hj hle hn'
      exact ⟨r, hl.reachedBy_iff.mpr ⟨.inr (hvia ▸ hr.1), hvia ▸ hr.2⟩,
        by rw [hl.reduced_eq, hs, hold]⟩
  · have hpath : ∃ rest, Path costs t j rest ∧ ∀ a ∈ rest, (t.column a).reached = true := by
      rcases (hl.reached j).mp hj with rfl | hold
      · exact h.path_new hpos hlast hnew hslack
      · exact h.path hold
    obtain ⟨rest, hp, hrest⟩ := hpath
    have hrest' : ∀ a ∈ rest, (t'.column a).reached = true := fun a ha =>
      (hl.reached a).mpr (.inr (hrest a ha))
    exact ⟨rest, hl.path hp (List.forall_mem_cons.mpr ⟨hj, hrest'⟩), hrest'⟩

/-! ## The ranges of a step -/

/-- Reduced costs are small if the duals are. -/
theorem reduced_bounds (hw : Within costs most) (hr : r < costs.size) (hj : 0 < j)
    (hle : j ≤ costs.size) (hrow : -most ≤ t.rowDual r ∧ t.rowDual r ≤ most)
    (hdual : -(2 * most) ≤ (t.column j).dual ∧ (t.column j).dual ≤ 0) :
    -(2 * most) ≤ reduced costs t r j ∧ reduced costs t r j ≤ 4 * most := by
  have hge := hw.ge (i := r) (j := j - 1) hr (by omega)
  have hle' := hw.le (i := r) (j := j - 1) hr (by omega)
  rw [reduced]
  omega

/-- The arcs of a row can be looked at. -/
theorem offers (hw : Within costs most) (hlength : t.columns.length = costs.size + 1)
    (hrow : row < costs.size) (hbounds : -most ≤ t.rowDual row ∧ t.rowDual row ≤ most)
    (hduals : ∀ {j}, 0 < j → -(2 * most) ≤ (t.column j).dual ∧ (t.column j).dual ≤ 0)
    (hj : j < t.columns.length) (hpos : 0 < j) :
    cell costs row (j - 1) = .ok (cost costs row (j - 1)) ∧
      Cost.InRange (cost costs row (j - 1) - t.rowDual row) ∧
      Cost.InRange (cost costs row (j - 1) - t.rowDual row - (t.column j).dual) := by
  rw [hlength] at hj
  have hlt : j - 1 < costs.size := by omega
  have hge := hw.ge (i := row) hrow hlt
  have hle := hw.le (i := row) hrow hlt
  have hreduced := reduced_bounds hw hrow hpos (by omega) hbounds (hduals hpos)
  have hmost := hw.nonneg
  rw [reduced] at hreduced
  exact ⟨hw.cell hrow hlt, hw.inRange (by omega) (by omega), hw.inRange (by omega) (by omega)⟩

namespace Tree

variable {delta : Int}

/-- The nearest column of a tree. -/
theorem nearest (h : Tree costs i base t) (hw : Within costs most) (hi : i < costs.size)
    (hlow : -most ≤ t.rowDual i) :
    0 < (nearest t.columns).2 ∧ (nearest t.columns).2 ≤ costs.size ∧
      (t.column (nearest t.columns).2).reached = false ∧
      (t.column (nearest t.columns).2).slack = (nearest t.columns).1 ∧
      ∀ {j}, j ≤ costs.size → (t.column j).reached = false →
        (nearest t.columns).1 ≤ (t.column j).slack := by
  obtain ⟨f, hf, hle, hfree⟩ := h.matching.exists_free hi
  have hlen := h.matching.columns
  have hnew := h.not_reached_of_free hfree
  have hslack := h.slack_le h.entry hf hle hnew
  have hcost := hw.le (i := i) (j := f - 1) hi (by omega)
  have hroom := hw.total_le (k := 1) (by omega)
  have hgreatest : (t.column f).slack < Cost.greatest := by
    rw [reduced, h.matching.free hf hfree] at hslack
    unfold Cost.greatest at hroom ⊢
    omega
  obtain ⟨hlt, hreached, heq, hall⟩ := nearest_spec (by omega) hnew hgreatest
  exact ⟨h.pos_of_not_reached hreached, by omega, hreached, heq, fun hj hr =>
    hall _ (by omega) hr⟩

/-- The duals of reached rows stay costs, up to sign: a column is free. -/
theorem raise_bounds (h : Tree costs i base t) (ha : Allows costs i t delta)
    (hw : Within costs most) (hi : i < costs.size) (hlow : -most ≤ t.rowDual i + delta)
    (hr : ReachedBy t.columns j r) :
    -most ≤ t.rowDual r + delta ∧ t.rowDual r + delta ≤ most := by
  constructor
  · rcases Nat.eq_zero_or_pos j with rfl | hj
    · cases hr.2.symm.trans h.entry.2
      exact hlow
    · have hbound := (h.matching.rowDual_bounds hw hi (h.matching.row_lt hj hr.2)).1
      have hdelta := ha.nonneg hj hr.1
      omega
  · obtain ⟨f, hf, hle, hfree⟩ := h.matching.exists_free hi
    have hnew := h.not_reached_of_free hfree
    have hslack := h.slack_le hr hf hle hnew
    have hdelta := ha.le_slack hf hle hnew
    have hcost := hw.le (i := r) (j := f - 1) (Nat.lt_of_le_of_lt (h.row_le hr) hi) (by omega)
    rw [reduced, h.matching.free hf hfree] at hslack
    omega

/-- The columns of a tree can be lowered. -/
theorem lower_inRange (h : Tree costs i base t) (ha : Allows costs i t delta)
    (hw : Within costs most) (hi : i < costs.size) (hbase : -(i * most) ≤ base ∧ base ≤ i * most)
    (hlow : -most ≤ t.rowDual i + delta) (hj : j ≤ costs.size) :
    ((t.column j).reached = true → Cost.InRange ((t.column j).dual - delta)) ∧
      ((t.column j).reached = false → Cost.InRange ((t.column j).slack - delta)) := by
  have hmost := hw.nonneg
  refine ⟨fun hr => ?_, fun hn => ?_⟩
  · obtain ⟨r, hrow⟩ := h.row hr
    have hbounds := h.raise_bounds ha hw hi hlow ⟨hr, hrow⟩
    rcases Nat.eq_zero_or_pos j with rfl | hj0
    · -- the entry sums the duals of the rows placed so far
      cases hrow.symm.trans h.entry.2
      rw [h.entry_dual]
      refine hw.inRange_total (k := i + 1) hi ?_ ?_ <;>
        rw [Int.natCast_succ, Int.add_mul, Int.one_mul] <;> omega
    · have htight := h.matching.tight hj0 hrow
      have hlt := h.matching.row_lt hj0 hrow
      have hge := hw.ge (i := r) (j := j - 1) (by omega) (by omega)
      have hle := hw.le (i := r) (j := j - 1) (by omega) (by omega)
      rw [reduced] at htight
      exact hw.inRange (by omega) (by omega)
  · have hj0 := h.pos_of_not_reached hn
    obtain ⟨r, hr, hslack⟩ := h.slack_eq hj0 hj hn
    have hbounds := h.raise_bounds ha hw hi hlow hr
    have hdual := h.matching.dual_bounds hw hi hj0
    have hlt := Nat.lt_of_le_of_lt (h.row_le hr) hi
    have hge := hw.ge (i := r) (j := j - 1) hlt (by omega)
    have hle := hw.le (i := r) (j := j - 1) hlt (by omega)
    rw [hslack, reduced]
    exact hw.inRange (by omega) (by omega)

end Tree

/-! ## Searching -/

/-- **The invariant of the search**: the column `last` is the nearest one, not reached yet but
tight. -/
structure Searching (costs : Array (Array Int)) (most : Int) (i : Nat) (base : Int) (t : Tableau)
    (last : Nat) : Prop where
  tree : Tree costs i base t
  low : -most ≤ t.rowDual i
  feasible : ∀ {j}, 0 < j → j ≤ costs.size → 0 ≤ reduced costs t i j
  pos : 0 < last
  le : last ≤ costs.size
  new : (t.column last).reached = false
  slack : (t.column last).slack = 0

/-- **A step answers and leaves a search**, once the arcs of the row have been looked at. -/
theorem Tree.widen {delta : Int} (hw : Within costs most) (hi : i < costs.size)
    (hbase : -(i * most) ≤ base ∧ base ≤ i * most) (hlast : last < t.columns.length)
    (hrow : row < t.rowDuals.length)
    (hoffers : ∀ j < t.columns.length, j ≠ last → (t.column j).reached = false →
      cell costs row (j - 1) = .ok (cost costs row (j - 1)) ∧
        Cost.InRange (cost costs row (j - 1) - t.rowDual row) ∧
        Cost.InRange (cost costs row (j - 1) - t.rowDual row - (t.column j).dual))
    (h : Tree costs i base (look costs t last row))
    (hdelta : delta = (Tableau.nearest (look costs t last row).columns).1)
    (hstart : -most ≤ (look costs t last row).rowDual i)
    (hlow : -most ≤ (look costs t last row).rowDual i + delta)
    (hnonneg : ∀ {j}, 0 < j → ((look costs t last row).column j).reached = true → 0 ≤ delta)
    (hfeasible : ∀ {j}, 0 < j → j ≤ costs.size →
      ((look costs t last row).column j).reached = true →
        0 ≤ reduced costs (look costs t last row) i j) :
    ∃ t' next, t.widen costs last row = .ok (t', next) ∧ Searching costs most i base t' next ∧
      ∀ j, (t'.column j).reached = ((look costs t last row).column j).reached := by
  obtain ⟨hpos, hle, hnew, hslack, hall⟩ := h.nearest hw hi hstart
  have ha : Allows costs i (look costs t last row) delta :=
    ⟨fun _ hj hr => hdelta ▸ hall hj hr, hnonneg, hfeasible⟩
  have hlength : t.columns.length = costs.size + 1 := length_looked.symm.trans h.matching.columns
  obtain ⟨duals, hok, hraised⟩ := widen_total hlast hrow hoffers hdelta
    (fun _ _ _ hr hr' => h.reachedBy_inj hr hr')
    (fun j r hr => by
      have hlt := Nat.lt_of_le_of_lt (h.row_le hr) hi
      have hbounds := h.raise_bounds ha hw hi hlow hr
      have hmost := hw.nonneg
      have hrange : Cost.InRange ((look costs t last row).rowDual r + delta) :=
        hw.inRange (by omega) (by omega)
      exact ⟨h.matching.rowDuals.symm ▸ hlt, hrange⟩)
    (fun j hj => h.lower_inRange ha hw hi hbase hlow (by omega))
  have hl : Lowered delta (look costs t last row)
      ⟨duals, (looked costs t last row).map (lowered delta)⟩ :=
    ⟨rfl, length_looked.symm ▸ hraised⟩
  have hlt : (Tableau.nearest (look costs t last row).columns).2 <
      (look costs t last row).columns.length := by
    rw [h.matching.columns]
    omega
  refine ⟨_, _, hok, ⟨h.lower ha hl, ?_, fun hj hle => h.feasible_lower ha hl hj hle, hpos, hle,
    ?_, ?_⟩, fun j => (hl.column j).2.2⟩
  · rw [hl.rowDual_of_reached h.entry]
    exact hlow
  · rw [← hnew]
    exact (hl.column _).2.2
  · have := hl.slack hlt hnew
    rw [hslack, hdelta, Int.sub_self] at this
    rw [hdelta]
    exact this

/-- The columns that are not reached yet. -/
def unreached (t : Tableau) : Finset Nat :=
  (Finset.range t.columns.length).filter fun j => (t.column j).reached = false

namespace Searching

/-- A column that is still free bounds the duals from above. -/
theorem rowDual_le (h : Searching costs most i base t last) (hw : Within costs most)
    (hi : i < costs.size) (hr : r ≤ i) : t.rowDual r ≤ most := by
  obtain ⟨f, hf, hle, hfree⟩ := h.tree.matching.exists_free hi
  have hfeasible : 0 ≤ reduced costs t r f := by
    rcases Nat.lt_or_eq_of_le hr with hr | rfl
    · exact h.tree.matching.feasible hr hf hle
    · exact h.feasible hf hle
  have hcost := hw.le (i := r) (j := f - 1) (by omega) (by omega)
  rw [reduced, h.tree.matching.free hf hfree] at hfeasible
  omega

/-- **A step of the search answers, keeps its invariant and reaches the column** it started from. -/
theorem widen (h : Searching costs most i base t last) (hw : Within costs most)
    (hi : i < costs.size) (hbase : -(i * most) ≤ base ∧ base ≤ i * most)
    (hrow : (t.column last).row = some row) :
    ∃ t' next, t.widen costs last row = .ok (t', next) ∧ Searching costs most i base t' next ∧
      ∀ j, (t'.column j).reached = true ↔ j = last ∨ (t.column j).reached = true := by
  have hm := h.tree.matching
  have hlt : last < t.columns.length := lt_of_row hrow
  have hl : Looked costs last row t (look costs t last row) := looked_look hlt
  have htree := h.tree.extend hl h.pos h.le h.new h.slack hrow
  have hrow_lt : row < i := hm.row_lt h.pos hrow
  have hlow : -most ≤ (look costs t last row).rowDual i := hl.rowDual_eq ▸ h.low
  obtain ⟨hpos, hle, hnew, hslack, -⟩ := htree.nearest hw hi hlow
  -- the least slack is a reduced cost of a reached row, and these are not negative
  have hnonneg : 0 ≤ (Tableau.nearest (look costs t last row).columns).1 := by
    obtain ⟨r, hr, heq⟩ := htree.slack_eq hpos hle hnew
    rw [← hslack, heq]
    rcases Nat.lt_or_eq_of_le (htree.row_le hr) with hr | rfl
    · exact htree.matching.feasible hr hpos hle
    · rw [hl.reduced_eq]
      exact h.feasible hpos hle
  obtain ⟨t', next, hok, hsearching, hreached⟩ := htree.widen hw hi hbase hlt
    (by rw [hm.rowDuals]; omega)
    (fun j hj _ hn => offers hw hm.columns (by omega) (hm.rowDual_bounds hw hi hrow_lt)
      (hm.dual_bounds hw hi) hj (h.tree.pos_of_not_reached hn))
    rfl hlow (by omega) (fun _ _ => hnonneg)
    (fun hj hle _ => by rw [hl.reduced_eq]; exact h.feasible hj hle)
  refine ⟨t', next, hok, hsearching, fun j => ?_⟩
  rw [hreached, hl.reached]

/-- Fewer columns are left once one more is reached. -/
theorem card_unreached (h : Searching costs most i base t last) {next : Nat}
    (h' : Searching costs most i base t' next)
    (hreached : ∀ j, (t'.column j).reached = true ↔ j = last ∨ (t.column j).reached = true) :
    t'.unreached.card < t.unreached.card := by
  have hlength : t'.columns.length = t.columns.length :=
    h'.tree.matching.columns.trans h.tree.matching.columns.symm
  have hlt : last < t.columns.length := by
    rw [h.tree.matching.columns]
    exact Nat.lt_succ_of_le h.le
  refine Finset.card_lt_card ?_
  rw [Finset.ssubset_iff_of_subset]
  · refine ⟨last, ?_, ?_⟩
    · simpa [unreached, hlt] using h.new
    · have hnow : (t'.column last).reached = true := (hreached last).mpr (.inl rfl)
      simp [unreached, hnow]
  · intro j hj
    obtain ⟨hj, hn⟩ := Finset.mem_filter.mp hj
    refine Finset.mem_filter.mpr ⟨hlength ▸ hj, Bool.eq_false_iff.mpr fun hr => ?_⟩
    rw [Bool.eq_false_iff] at hn
    exact hn ((hreached j).mpr (.inr hr))

end Searching

/-! ## The columns of a search -/

/-- The search reads a row as the invariants do. -/
theorem bind_row : t.columns[j]?.bind Column.row = (t.column j).row := by
  rw [column, nth]
  cases t.columns[j]? <;> rfl

/-- The search from the column `last` visits the columns `visited`, the first of them `last`, and
ends at a free one. -/
inductive Visits (costs : Array (Array Int)) :
    Tableau → Nat → List Nat → Tableau → Nat → Prop
  | free {t : Tableau} {last : Nat} : (t.column last).row = none → Visits costs t last [last] t last
  | step {t t' t'' : Tableau} {last row next found : Nat} {visited : List Nat} :
      (t.column last).row = some row → t.widen costs last row = .ok (t', next) →
      Visits costs t' next visited t'' found → Visits costs t last (last :: visited) t'' found

namespace Visits

variable {found : Nat} {visited : List Nat}

theorem row_eq_none (h : Visits costs t last visited t' found) : (t'.column found).row = none := by
  induction h with
  | free hrow => exact hrow
  | step _ _ _ ih => exact ih

/-- **The search takes a step for each column it visits**, and needs no more fuel than that. -/
theorem search_eq (h : Visits costs t last visited t' found) (fuel : Nat) :
    search costs fuel t last =
      if visited.length ≤ fuel then .ok (t', found) else .error .unfinished := by
  induction h generalizing fuel with
  | free hrow =>
    cases fuel with
    | zero => rfl
    | succ fuel =>
      rw [search, bind_row, hrow]
      exact (if_pos (Nat.succ_le_succ (Nat.zero_le fuel))).symm
  | step hrow hwiden _ ih =>
    cases fuel with
    | zero => rfl
    | succ fuel =>
      rw [search, bind_row, hrow]
      simp only [hwiden, bind, Except.bind, ih fuel, List.length_cons, Nat.succ_le_succ_iff]

end Visits

/-- **The search ends at a free column, and visits each column at most once.** -/
theorem Searching.visits (h : Searching costs most i base t last) (hw : Within costs most)
    (hi : i < costs.size) (hbase : -(i * most) ≤ base ∧ base ≤ i * most) :
    ∃ visited t' found, Visits costs t last visited t' found ∧ visited.Nodup ∧
      (∀ j ∈ visited, 0 < j ∧ j ≤ costs.size ∧ (t.column j).reached = false) ∧
      Searching costs most i base t' found := by
  induction hleft : t.unreached.card using Nat.strong_induction_on generalizing t last with
  | _ left ih =>
    cases hrow : (t.column last).row with
    | none =>
      refine ⟨[last], t, last, .free hrow, List.nodup_singleton last, fun j hj => ?_, h⟩
      cases List.mem_singleton.mp hj
      exact ⟨h.pos, h.le, h.new⟩
    | some row =>
      obtain ⟨t₁, next, hok, hnext, hreached⟩ := h.widen hw hi hbase hrow
      have hcard := h.card_unreached hnext hreached
      obtain ⟨visited, t', found, hvisits, hnodup, hnew, hfound⟩ := ih _ (hleft ▸ hcard) hnext rfl
      -- what the rest of the search visits was not reached when it began, and `last` was
      have hkept : ∀ j ∈ visited, j ≠ last ∧ (t.column j).reached = false := by
        intro j hj
        have hn : ¬(j = last ∨ (t.column j).reached = true) := by
          rw [← hreached, (hnew j hj).2.2]
          exact Bool.false_ne_true
        exact ⟨fun he => hn (.inl he), Bool.eq_false_iff.mpr fun hr => hn (.inr hr)⟩
      refine ⟨last :: visited, t', found, .step hrow hok hvisits,
        List.nodup_cons.mpr ⟨fun hmem => (hkept last hmem).1 rfl, hnodup⟩, fun j hj => ?_, hfound⟩
      rcases List.mem_cons.mp hj with rfl | hj
      · exact ⟨h.pos, h.le, h.new⟩
      · exact ⟨(hnew j hj).1, (hnew j hj).2.1, (hkept j hj).2⟩

end Fathom.Routing.Assignment.Tableau
