import Fathom.Proofs.Routing.Search

/-!
# Placing a row

A row is placed by a search for a free column (`Searching.visits`) and a change of the matching
along the path that was found. On its way back to the entry, the change leaves one column at a time
without a row of its own: every other column, the entry included, holds a row of the matching to be
(`Hole`). The hole moves up to the entry, which may keep it.

Results:
* `Placed.widen`: the first step of a search begins a tree;
* `Hole.augment`: the change along a path answers, and moves the hole to the entry;
* `Placed.course`: both loops end, after a step for each column they come to (`Course`);
* `Placed.place`: **placing a row answers**, and leaves one more row placed;
* `Placed.first`: so does placing the first rows, one after the other.
-/

namespace Fathom.Routing.Assignment.Tableau

variable {costs : Array (Array Int)} {most base : Int} {i j r last : Nat} {rest : List Nat}
  {t t' : Tableau}

/-- **The invariant of the method**: the rows below `i` are placed. -/
structure Placed (costs : Array (Array Int)) (most : Int) (i : Nat) (t : Tableau) : Prop where
  matching : Matching costs i t
  fresh : ∀ {r}, i ≤ r → t.rowDual r = 0
  entry : -(i * most) ≤ (t.column 0).dual ∧ (t.column 0).dual ≤ i * most
  rows : ∀ {r}, r < i → -most ≤ t.rowDual r ∧ t.rowDual r ≤ most
  duals : ∀ {j}, 0 < j → -(2 * most) ≤ (t.column j).dual ∧ (t.column j).dual ≤ 0

theorem column_start (n : Nat) :
    ((start n).column j).row = none ∧ ((start n).column j).dual = 0 := by
  rw [column, nth]
  simp only [start, List.getElem?_replicate]
  split <;> exact ⟨rfl, rfl⟩

theorem rowDual_start (n : Nat) : (start n).rowDual r = 0 := by
  simp only [rowDual, start, List.getD_eq_getElem?_getD, List.getElem?_replicate]
  split <;> rfl

theorem placed_start (hw : Within costs most) : Placed costs most 0 (start costs.size) := by
  have hmost := hw.nonneg
  have hrow : ∀ {j r}, ((start costs.size).column j).row ≠ some r := by
    intro j r h
    rw [(column_start costs.size).1] at h
    cases h
  have hdual : ∀ j, ((start costs.size).column j).dual = 0 := fun j => (column_start costs.size).2
  refine ⟨⟨List.length_replicate, List.length_replicate, fun _ h => absurd h hrow,
    fun _ _ h => absurd h hrow, fun h => absurd h (Nat.not_lt_zero _), fun _ h => absurd h hrow,
    fun h => absurd h (Nat.not_lt_zero _), fun {j} _ => Int.le_of_eq (hdual j),
    fun {j} _ _ => hdual j⟩, fun _ => rowDual_start _, ?_, fun h => absurd h (Nat.not_lt_zero _),
    fun {j} _ => ?_⟩
  · rw [hdual]
    omega
  · rw [hdual]
    omega

/-! ## The first step -/

/-- Entering a row forgets all paths. -/
theorem column_enter (hj : j < t.columns.length) : (t.enter i).column j =
    ⟨if j = 0 then some i else (t.column j).row, (t.column j).dual, (t.column j).via,
      Cost.greatest, false⟩ := by
  have hlength : 0 < (t.columns.map fun c =>
      { c with slack := Cost.greatest, reached := false }).length := by
    rw [List.length_map]
    omega
  rw [column, enter]
  dsimp only
  rw [nth_modify _ hlength, nth_map _ hj, column]
  split <;> rfl

theorem length_enter : (t.enter i).columns.length = t.columns.length := by
  rw [enter, List.length_modify, List.length_map]

theorem column_enter_of_le (hj : t.columns.length ≤ j) : (t.enter i).column j = t.column j := by
  rw [column, column, nth_of_le hj, nth_of_le (length_enter.symm ▸ hj)]

/-- The entry alone is reached after the first look. -/
theorem Looked.eq_zero (hl : Looked costs 0 i (t.enter i) t')
    (hj : (t'.column j).reached = true) : j = 0 := by
  rcases (hl.reached j).mp hj with hj | hj
  · exact hj
  · have hlt := lt_of_reached hj
    rw [length_enter] at hlt
    rw [column_enter hlt] at hj
    cases hj

namespace Placed

theorem length_pos (h : Placed costs most i t) : 0 < t.columns.length := by
  rw [h.matching.columns]
  exact Nat.succ_pos _

theorem matching_enter (h : Placed costs most i t) : Matching costs i (t.enter i) := by
  refine h.matching.congr rfl length_enter (fun j hj => ?_) fun j hj => ?_
  · by_cases hlt : j < t.columns.length
    · rw [column_enter hlt]
      exact if_neg (Nat.ne_of_gt hj)
    · rw [column_enter_of_le (Nat.le_of_not_lt hlt)]
  · by_cases hlt : j < t.columns.length
    · rw [column_enter hlt]
    · rw [column_enter_of_le (Nat.le_of_not_lt hlt)]

/-- Reduced costs of the entering row, whose dual is zero. -/
theorem reduced_enter (h : Placed costs most i t) (hj : j < t.columns.length) :
    reduced costs (t.enter i) i j = cost costs i (j - 1) - (t.column j).dual := by
  have hfresh : (t.enter i).rowDual i = 0 := h.fresh (Nat.le_refl i)
  rw [reduced, hfresh, column_enter hj, Int.sub_zero]

/-- After the first look, slacks are the reduced costs of the entering row. -/
theorem slack_look (h : Placed costs most i t) (hw : Within costs most) (hi : i < costs.size)
    (hl : Looked costs 0 i (t.enter i) t') (hj : 0 < j) (hle : j ≤ costs.size)
    (hn : (t'.column j).reached = false) :
    (t'.column j).slack = reduced costs t' i j ∧ (t'.column j).via = 0 := by
  have hlt : j < t.columns.length := by
    rw [h.matching.columns]
    omega
  rw [hl.reduced_eq]
  rcases hl.slack (length_enter.symm ▸ hlt) hn with ⟨-, hs, hvia⟩ | ⟨hs, -, -⟩
  · exact ⟨hs, hvia⟩
  · rw [column_enter hlt, h.reduced_enter hlt] at hs
    have hcost := hw.le (i := i) (j := j - 1) hi (by omega)
    have hdual := h.duals hj
    have hroom := hw.total_le (k := 1) (by omega)
    have hgreatest : Cost.greatest ≤ cost costs i (j - 1) - (t.column j).dual := hs
    unfold Cost.greatest at hroom hgreatest
    omega

/-- Looking at the arcs of the entering row begins a tree. -/
theorem tree (h : Placed costs most i t) (hw : Within costs most) (hi : i < costs.size)
    (hl : Looked costs 0 i (t.enter i) t') : Tree costs i (t.column 0).dual t' := by
  have hentry : ReachedBy t'.columns 0 i := hl.reachedBy_iff.mpr ⟨.inl rfl, by
    rw [column_enter h.length_pos]
    rfl⟩
  have hfresh : ∀ {r}, i ≤ r → t'.rowDual r = 0 := fun hr => hl.rowDual_eq.trans (h.fresh hr)
  refine ⟨hl.matching h.matching_enter, hentry, ?_, fun hr => hfresh (Nat.le_of_lt hr),
    fun {j} hj => ?_, fun {a r j} hr hj hle hn => ?_, fun {j} hj hle hn => ?_, fun {j} hj => ?_⟩
  · rw [hl.dual, column_enter h.length_pos, hfresh (Nat.le_refl i), Int.sub_zero]
  · cases hl.eq_zero hj
    exact ⟨i, hentry.2⟩
  · cases hl.eq_zero hr.1
    cases hr.2.symm.trans hentry.2
    exact Int.le_of_eq (h.slack_look hw hi hl hj hle hn).1
  · obtain ⟨hs, hvia⟩ := h.slack_look hw hi hl hj hle hn
    exact ⟨i, hvia ▸ hentry, hs⟩
  · cases hl.eq_zero hj
    exact ⟨[], .entry, fun a ha => (by cases ha)⟩

/-- **The first step answers and leaves a search.** It may move the duals downwards. -/
theorem widen (h : Placed costs most i t) (hw : Within costs most) (hi : i < costs.size) :
    ∃ t' last, (t.enter i).widen costs 0 i = .ok (t', last) ∧
      Searching costs most i (t.column 0).dual t' last := by
  have hmost := hw.nonneg
  have hlt : 0 < (t.enter i).columns.length := length_enter.symm ▸ h.length_pos
  have hl : Looked costs 0 i (t.enter i) (look costs (t.enter i) 0 i) := looked_look hlt
  have htree := h.tree hw hi hl
  have hfresh : (look costs (t.enter i) 0 i).rowDual i = 0 :=
    hl.rowDual_eq.trans (h.fresh (Nat.le_refl i))
  have hstart : -most ≤ (look costs (t.enter i) 0 i).rowDual i := by
    rw [hfresh]
    omega
  obtain ⟨hpos, hle, hnew, hslack, -⟩ := htree.nearest hw hi hstart
  have hnot : ∀ {j}, 0 < j → ¬((look costs (t.enter i) 0 i).column j).reached = true :=
    fun hj hr => Nat.ne_of_gt hj (hl.eq_zero hr)
  have hlow : -most ≤ (look costs (t.enter i) 0 i).rowDual i +
      (nearest (look costs (t.enter i) 0 i).columns).1 := by
    have hge := hw.ge (i := i) hi (j := (nearest (look costs (t.enter i) 0 i).columns).2 - 1)
      (by omega)
    have hdual := htree.matching.dual_nonpos hpos
    rw [← hslack, (h.slack_look hw hi hl hpos hle hnew).1, reduced, hfresh]
    omega
  obtain ⟨t', last, hok, hsearching, -⟩ := htree.widen hw hi h.entry hlt
    (h.matching.rowDuals.symm ▸ hi)
    (fun j hj hj0 _ => offers hw h.matching_enter.columns hi
      (by
        have hfresh : (t.enter i).rowDual i = 0 := h.fresh (Nat.le_refl i)
        rw [hfresh]
        omega)
      (h.matching_enter.dual_bounds hw hi) hj (Nat.pos_of_ne_zero hj0))
    rfl hstart hlow (fun hj hr => absurd hr (hnot hj)) fun hj _ hr => absurd hr (hnot hj)
  exact ⟨t', last, hok, hsearching⟩

end Placed

/-! ## Changing the matching along a path -/

namespace Path

theorem lt (h : Path costs t j rest) : ∀ a ∈ rest, a < t.columns.length := by
  induction h with
  | entry => exact fun a ha => by cases ha
  | step _ _ hrow _ _ ih =>
    intro a ha
    rcases List.mem_cons.mp ha with rfl | ha
    · exact lt_of_row hrow
    · exact ih a ha

theorem not_mem (h : Path costs t j rest) : j ∉ rest := by
  cases h with
  | entry => exact List.not_mem_nil
  | step _ hnew => exact hnew

theorem nodup (h : Path costs t j rest) : rest.Nodup := by
  induction h with
  | entry => exact List.nodup_nil
  | step _ _ _ _ hp ih => exact List.nodup_cons.mpr ⟨hp.not_mem, ih⟩

/-- A path follows the predecessors of its columns. -/
theorem isChain (h : Path costs t j rest) :
    (j :: rest).IsChain fun a b => (t.column a).via = b := by
  induction h with
  | entry => exact .singleton 0
  | step _ _ _ _ _ ih => exact .cons_cons rfl ih

/-- A path of at least one arc ends at the entry. -/
theorem getLast?_eq (h : Path costs t j rest) (hpos : 0 < j) : rest.getLast? = some 0 := by
  induction h with
  | entry => exact absurd hpos (Nat.lt_irrefl 0)
  | @step j _ _ _ _ _ _ hp ih =>
    rcases Nat.eq_zero_or_pos (t.column j).via with h0 | hvia
    · rw [h0] at hp ⊢
      cases hp with
      | entry => rfl
      | step hlt => exact absurd hlt (Nat.lt_irrefl 0)
    · rw [List.getLast?_cons, ih hvia]
      rfl

end Path

/-- Gives the row `r` to a column. -/
def give (t : Tableau) (last r : Nat) : Tableau :=
  ⟨t.rowDuals, t.columns.modify last fun c => { c with row := some r }⟩

theorem column_give (hlast : last < t.columns.length) : (t.give last r).column j =
    if j = last then { t.column j with row := some r } else t.column j :=
  nth_modify _ hlast

theorem dual_give (hlast : last < t.columns.length) :
    ((t.give last r).column j).dual = (t.column j).dual := by
  rw [column_give hlast]
  split <;> rfl

theorem reduced_give (hlast : last < t.columns.length) {r' : Nat} :
    reduced costs (t.give last r) r' j = reduced costs t r' j := by
  rw [reduced, dual_give hlast]
  rfl

/-- A step of the change gives a column the row of the one before it. -/
theorem augment_succ (hlast : last < t.columns.length)
    (hrow : (t.column (t.column last).via).row = some r) (fuel : Nat) :
    augment (fuel + 1) t.columns last =
      if (t.column last).via = 0 then .ok (t.give last r).columns
      else augment fuel (t.give last r).columns (t.column last).via := by
  have hentry : ∀ {j}, j < t.columns.length → entry t.columns j = .ok (t.column j) := by
    intro j hj
    rw [entry_of_lt hj, getElem_eq_nth hj, column]
  rw [augment]
  simp only [hentry hlast, hentry (lt_of_row hrow), bind, Except.bind, hrow]
  rfl

/-- A path is kept if a column that it does not lead through is given a row. -/
theorem Path.give (h : Path costs t j rest) (hlast : last < t.columns.length) (hnew : last ∉ rest) :
    Path costs (t.give last r) j rest := by
  refine h.congr (fun a _ => ?_) (fun b hb => ?_) fun _ _ _ _ _ _ => reduced_give hlast
  · rw [column_give hlast]
    split <;> rfl
  · have hne : b ≠ last := fun he => hnew (he ▸ hb)
    rw [column_give hlast, if_neg hne]

/-- **The invariant of the change**: the rows up to `i` are held by the columns other than `last`,
the entry included. -/
structure Hole (costs : Array (Array Int)) (i : Nat) (t : Tableau) (last : Nat) : Prop where
  rowDuals : t.rowDuals.length = costs.size
  columns : t.columns.length = costs.size + 1
  row_le : ∀ {j r}, j ≠ last → (t.column j).row = some r → r ≤ i
  injective : ∀ {j j' r}, j ≠ last → j' ≠ last → (t.column j).row = some r →
    (t.column j').row = some r → j = j'
  onto : ∀ {r}, r ≤ i → ∃ j, j ≠ last ∧ (t.column j).row = some r
  tight : ∀ {j r}, 0 < j → j ≠ last → (t.column j).row = some r → reduced costs t r j = 0
  free : ∀ {j}, 0 < j → j ≠ last → (t.column j).row = none → (t.column j).dual = 0

namespace Hole

/-- The hole is filled with the row of another column, which is the hole then. -/
theorem fill (h : Hole costs i t last) {via : Nat} (hlast : last < t.columns.length)
    (hvia : via ≠ last) (hrow : (t.column via).row = some r) (htight : reduced costs t r last = 0) :
    Hole costs i (t.give last r) via := by
  have hgiven : ((t.give last r).column last).row = some r := by
    rw [column_give hlast, if_pos rfl]
  have hkept : ∀ {j}, j ≠ last → (t.give last r).column j = t.column j := by
    intro j hj
    rw [column_give hlast, if_neg hj]
  -- no other column holds the row that was passed on
  have honly : ∀ {j}, j ≠ via → j ≠ last → ((t.give last r).column j).row ≠ some r := by
    intro j hj hjl hr
    rw [hkept hjl] at hr
    exact hj (h.injective hjl hvia hr hrow)
  refine ⟨h.rowDuals, (List.length_modify ..).trans h.columns, fun {j r'} hj hr => ?_,
    fun {j j' r'} hj hj' hr hr' => ?_, fun {r'} hr => ?_, fun {j r'} hpos hj hr => ?_,
    fun {j} hpos hj hr => ?_⟩
  · by_cases hjl : j = last
    · rw [hjl, hgiven] at hr
      cases hr
      exact h.row_le hvia hrow
    · exact h.row_le hjl (hkept hjl ▸ hr)
  · by_cases hjl : j = last <;> by_cases hjl' : j' = last
    · rw [hjl, hjl']
    · rw [hjl, hgiven] at hr
      exact absurd (hr ▸ hr') (honly hj' hjl')
    · rw [hjl', hgiven] at hr'
      exact absurd (hr' ▸ hr) (honly hj hjl)
    · exact h.injective hjl hjl' (hkept hjl ▸ hr) (hkept hjl' ▸ hr')
  · obtain ⟨j, hjl, hj⟩ := h.onto hr
    by_cases hjv : j = via
    · rw [hjv, hrow] at hj
      cases hj
      exact ⟨last, hvia.symm, hgiven⟩
    · exact ⟨j, hjv, hkept hjl ▸ hj⟩
  · rw [reduced_give hlast]
    by_cases hjl : j = last
    · rw [hjl, hgiven] at hr
      cases hr
      rw [hjl, htight]
    · exact h.tight hpos hjl (hkept hjl ▸ hr)
  · by_cases hjl : j = last
    · rw [hjl, hgiven] at hr
      cases hr
    · rw [hkept hjl] at hr ⊢
      exact h.free hpos hjl hr

/-- **The change along a path takes a step for each of its arcs**, and moves the hole to the
entry. -/
theorem augment (h : Hole costs i t last) (hp : Path costs t last rest) (hpos : 0 < last)
    (hlast : last < t.columns.length) :
    ∃ t', (∀ fuel, augment fuel t.columns last =
        if rest.length ≤ fuel then .ok t'.columns else .error .unfinished) ∧
      t'.rowDuals = t.rowDuals ∧ (∀ j, (t'.column j).dual = (t.column j).dual) ∧
      Hole costs i t' 0 := by
  induction rest generalizing t last with
  | nil =>
    cases hp with
    | entry => exact absurd hpos (Nat.lt_irrefl 0)
  | cons via rest ih =>
    cases hp with
    | @step _ r _ _ hnew hrow htight hp =>
      have hvia : (t.column last).via ≠ last := fun he =>
        hnew (List.mem_cons.mpr (.inl he.symm))
      have hfill := h.fill hlast hvia hrow htight
      rcases Nat.eq_zero_or_pos (t.column last).via with h0 | hvia_pos
      · rw [h0] at hp
        cases hp with
        | step hlt => exact absurd hlt (Nat.lt_irrefl 0)
        | entry =>
          refine ⟨t.give last r, fun fuel => ?_, rfl, fun j => dual_give hlast, h0 ▸ hfill⟩
          cases fuel with
          | zero => rfl
          | succ fuel =>
            rw [augment_succ hlast hrow, if_pos h0]
            exact (if_pos (Nat.succ_le_succ (Nat.zero_le fuel))).symm
      · have hgive : (t.give last r).columns.length = t.columns.length := List.length_modify ..
        have hp' : Path costs (t.give last r) (t.column last).via rest :=
          hp.give hlast fun hmem => hnew (List.mem_cons_of_mem _ hmem)
        obtain ⟨t', hsteps, hrows, hduals, hhole⟩ := ih hfill hp' hvia_pos
          (hgive.symm ▸ lt_of_row hrow)
        refine ⟨t', fun fuel => ?_, hrows, fun j => (hduals j).trans (dual_give hlast), hhole⟩
        cases fuel with
        | zero => rfl
        | succ fuel =>
          rw [augment_succ hlast hrow, if_neg (Nat.ne_of_gt hvia_pos), hsteps fuel]
          simp only [List.length_cons, Nat.succ_le_succ_iff]

/-- With the hole at the entry, the matching has one more row. -/
theorem matching (h : Hole costs i t 0)
    (hfeasible : ∀ {r j}, r ≤ i → 0 < j → j ≤ costs.size → 0 ≤ reduced costs t r j)
    (hdual : ∀ {j}, 0 < j → (t.column j).dual ≤ 0) : Matching costs (i + 1) t := by
  refine ⟨h.rowDuals, h.columns, fun hj hr => ?_, fun hj hj' => ?_, fun hr => ?_, fun hj hr => ?_,
    fun hr => hfeasible (Nat.le_of_lt_succ hr), hdual, fun hj hr => ?_⟩
  · exact Nat.lt_succ_of_le (h.row_le (Nat.ne_of_gt hj) hr)
  · exact h.injective (Nat.ne_of_gt hj) (Nat.ne_of_gt hj')
  · obtain ⟨j, hj, hrow⟩ := h.onto (Nat.le_of_lt_succ hr)
    exact ⟨j, Nat.pos_of_ne_zero hj, hrow⟩
  · exact h.tight hj (Nat.ne_of_gt hj) hr
  · exact h.free hj (Nat.ne_of_gt hj) hr

end Hole

/-! ## Placing rows -/

namespace Searching

/-- The duals of the rows up to the entering one are costs, up to sign. -/
theorem rowDual_bounds (h : Searching costs most i base t last) (hw : Within costs most)
    (hi : i < costs.size) (hr : r ≤ i) : -most ≤ t.rowDual r ∧ t.rowDual r ≤ most := by
  refine ⟨?_, h.rowDual_le hw hi hr⟩
  rcases Nat.lt_or_eq_of_le hr with hr | rfl
  · exact (h.tree.matching.rowDual_bounds hw hi hr).1
  · exact h.low

/-- A free column that was found is the hole of the matching to be. -/
theorem hole (h : Searching costs most i base t last) (hfree : (t.column last).row = none) :
    Hole costs i t last := by
  have hm := h.tree.matching
  have hne : ∀ {j r}, (t.column j).row = some r → j ≠ last := by
    intro j r hr he
    rw [he, hfree] at hr
    cases hr
  have hentry : ∀ {j}, (t.column j).row = some i → j = 0 := by
    intro j hr
    by_contra hj
    exact Nat.lt_irrefl i (hm.row_lt (Nat.pos_of_ne_zero hj) hr)
  have hzero : ∀ {r}, (t.column 0).row = some r → r = i := fun hr =>
    Option.some.inj (hr.symm.trans h.tree.entry.2)
  refine ⟨hm.rowDuals, hm.columns, fun {j r} _ hr => ?_, fun {j j' r} _ _ hr hr' => ?_,
    fun {r} hr => ?_, fun hj _ => hm.tight hj, fun hj _ => hm.free hj⟩
  · rcases Nat.eq_zero_or_pos j with rfl | hj
    · exact Nat.le_of_eq (hzero hr)
    · exact Nat.le_of_lt (hm.row_lt hj hr)
  · rcases Nat.eq_zero_or_pos j with rfl | hj
    · cases hzero hr
      exact (hentry hr').symm
    · rcases Nat.eq_zero_or_pos j' with rfl | hj'
      · cases hzero hr'
        exact hentry hr
      · exact hm.injective hj hj' hr hr'
  · rcases Nat.lt_or_eq_of_le hr with hr | rfl
    · obtain ⟨j, -, hrow⟩ := hm.onto hr
      exact ⟨j, hne hrow, hrow⟩
    · exact ⟨0, hne h.tree.entry.2, h.tree.entry.2⟩

/-- Once the matching has been changed along the path, one more row is placed. -/
theorem placed (h : Searching costs most i base t last) (hw : Within costs most)
    (hi : i < costs.size) (hbase : -(i * most) ≤ base ∧ base ≤ i * most)
    (hrows : t'.rowDuals = t.rowDuals) (hduals : ∀ j, (t'.column j).dual = (t.column j).dual)
    (hhole : Hole costs i t' 0) : Placed costs most (i + 1) t' := by
  have hm := h.tree.matching
  have hrowDual : ∀ r, t'.rowDual r = t.rowDual r := by
    intro r
    rw [rowDual, hrows, rowDual]
  have hreduced : ∀ r j, reduced costs t' r j = reduced costs t r j := by
    intro r j
    rw [reduced, hrowDual, hduals, reduced]
  refine ⟨?_, fun {r} hr => ?_, ?_, fun {r} hr => ?_, fun {j} hj => ?_⟩
  · refine hhole.matching (fun {r j} hr hj hle => ?_) fun {j} hj => ?_
    · rw [hreduced]
      rcases Nat.lt_or_eq_of_le hr with hr | rfl
      · exact hm.feasible hr hj hle
      · exact h.feasible hj hle
    · rw [hduals]
      exact hm.dual_nonpos hj
  · rw [hrowDual]
    exact h.tree.fresh hr
  · have hbounds := h.rowDual_bounds hw hi (Nat.le_refl i)
    rw [hduals, h.tree.entry_dual, Int.natCast_succ, Int.add_mul, Int.one_mul]
    omega
  · rw [hrowDual]
    exact h.rowDual_bounds hw hi (Nat.le_of_lt_succ hr)
  · rw [hduals]
    exact hm.dual_bounds hw hi hj

end Searching

/-- **How a row is placed**: the search visits the columns `visited` and ends at the free column
`found` of the tableau `t'`; the change follows the predecessors from there along `walk`, which ends
at the entry. Both loops take one step for each of these columns, and come to none of them twice. -/
structure Course (costs : Array (Array Int)) (i : Nat) (t : Tableau) (visited : List Nat)
    (t' : Tableau) (found : Nat) (walk : List Nat) (t'' : Tableau) : Prop where
  visits : Visits costs (t.enter i) 0 visited t' found
  visited_nodup : visited.Nodup
  visited_le : ∀ j ∈ visited, j ≤ costs.size
  search : ∀ fuel, (t.enter i).search costs fuel 0 =
    if visited.length ≤ fuel then .ok (t', found) else .error .unfinished
  walks : (found :: walk).IsChain fun j j' => (t'.column j).via = j'
  walk_nodup : (found :: walk).Nodup
  walk_le : ∀ j ∈ found :: walk, j ≤ costs.size
  ends : walk.getLast? = some 0
  augment : ∀ fuel, augment fuel t'.columns found =
    if walk.length ≤ fuel then .ok t''.columns else .error .unfinished

/-- Columns of a matrix and the entry, none of them twice. -/
theorem length_le_of_nodup {n : Nat} {js : List Nat} (hnodup : js.Nodup) (hle : ∀ j ∈ js, j ≤ n) :
    js.length ≤ n + 1 := by
  have hsub : js ⊆ List.range (n + 1) := fun j hj =>
    List.mem_range.mpr (Nat.lt_succ_of_le (hle j hj))
  have := (List.subperm_of_subset hnodup hsub).length_le
  rwa [List.length_range] at this

namespace Placed

/-- **The two loops that place a row end.** -/
theorem course (h : Placed costs most i t) (hw : Within costs most) (hi : i < costs.size) :
    ∃ visited t₁ found walk t', Course costs i t visited t₁ found walk t' ∧
      t'.rowDuals = t₁.rowDuals ∧ Placed costs most (i + 1) t' := by
  obtain ⟨t₀, next, hwiden, hfirst⟩ := h.widen hw hi
  obtain ⟨visited, t₁, found, hvisits, hnodup, hnew, hs⟩ := hfirst.visits hw hi h.entry
  obtain ⟨walk, hp, -⟩ := hs.tree.path_new hs.pos hs.le hs.new hs.slack
  have hm := hs.tree.matching
  have hlast := hs.le
  obtain ⟨t', hsteps, hrows, hduals, hhole⟩ := (hs.hole hvisits.row_eq_none).augment hp hs.pos
    (by rw [hm.columns]; omega)
  have hrow : ((t.enter i).column 0).row = some i := by
    rw [column_enter h.length_pos]
    rfl
  have hall : Visits costs (t.enter i) 0 (0 :: visited) t₁ found := .step hrow hwiden hvisits
  refine ⟨0 :: visited, t₁, found, walk, t', ⟨hall, ?_, ?_, hall.search_eq, hp.isChain, ?_, ?_,
    hp.getLast?_eq hs.pos, hsteps⟩, hrows, hs.placed hw hi h.entry hrows hduals hhole⟩
  · exact List.nodup_cons.mpr ⟨fun h0 => Nat.lt_irrefl 0 (hnew 0 h0).1, hnodup⟩
  · exact List.forall_mem_cons.mpr ⟨Nat.zero_le _, fun j hj => (hnew j hj).2.1⟩
  · exact List.nodup_cons.mpr ⟨hp.not_mem, hp.nodup⟩
  · refine List.forall_mem_cons.mpr ⟨hs.le, fun j hj => ?_⟩
    have := hp.lt j hj
    rw [hm.columns] at this
    omega

/-- **Placing a row answers**, and leaves one more row placed. -/
theorem place (h : Placed costs most i t) (hw : Within costs most) (hi : i < costs.size) :
    ∃ visited t₁ found walk t', Course costs i t visited t₁ found walk t' ∧
      t.place costs i = .ok t' ∧ Placed costs most (i + 1) t' := by
  obtain ⟨visited, t₁, found, walk, t', hc, hrows, hplaced⟩ := h.course hw hi
  refine ⟨visited, t₁, found, walk, t', hc, ?_, hplaced⟩
  have hvisited := length_le_of_nodup hc.visited_nodup hc.visited_le
  have hwalk := length_le_of_nodup hc.walk_nodup hc.walk_le
  have hsearch := hc.search (2 * costs.size + 3)
  rw [if_pos (by omega)] at hsearch
  have haugment := hc.augment (costs.size + 1)
  rw [if_pos (Nat.le_of_succ_le hwalk)] at haugment
  rw [Tableau.place, h.matching.rowDuals]
  simp only [hsearch, bind, Except.bind, haugment, pure, Except.pure, ← hrows]

/-- **Placing the first rows answers.** -/
theorem first (hw : Within costs most) {k : Nat} (hk : k ≤ costs.size) :
    ∃ t, (List.range k).foldlM (Tableau.place costs) (start costs.size) = .ok t ∧
      Placed costs most k t := by
  have hstep : ∀ m t i, (List.range k)[m]? = some i → Placed costs most m t →
      ∃ t', t.place costs i = .ok t' ∧ Placed costs most (m + 1) t' := by
    intro m t i hm h
    obtain ⟨hlt, hmi⟩ := List.getElem?_eq_some_iff.mp hm
    rw [List.getElem_range] at hmi
    rw [List.length_range] at hlt
    obtain ⟨-, -, -, -, t', -, hplace, hplaced⟩ := h.place hw (Nat.lt_of_lt_of_le hlt hk)
    exact ⟨t', hmi ▸ hplace, hplaced⟩
  have hloop := foldlM_inv (placed_start hw) hstep
  rwa [List.length_range] at hloop

end Placed

end Fathom.Routing.Assignment.Tableau
