import Fathom.Proofs.Answers
import Fathom.Routing.Assignment

/-!
# One step of the Hungarian method

`Tableau.widen` is a chain of checked steps over lists. Here each of them is opened once: under
which conditions it answers, and what it leaves, read entry by entry (`nth`). All that is known of
arithmetic are the conditions that its results lie in range.

Results:
* `nearest_spec`: the nearest column is one that is not reached, and none is nearer;
* `raise_total`: the duals of the rows that are matched with reached columns are raised, each once;
* `widen_total`: a step answers, and what it leaves.
-/

namespace Fathom.Routing.Assignment

/-- The cost of an arc; zero where there is none. -/
def cost (costs : Array (Array Int)) (i j : Nat) : Int := (costs[i]?.bind (·[j]?)).getD 0

theorem cell_eq_ok_iff {costs : Array (Array Int)} {i j : Nat} {c : Int} :
    cell costs i j = .ok c ↔ costs[i]?.bind (·[j]?) = some c := by
  unfold cell
  cases costs[i]? with
  | none => simp
  | some row => cases h : row[j]? <;> simp [h]

theorem cost_of_cell {costs : Array (Array Int)} {i j : Nat} {c : Int}
    (h : cell costs i j = .ok c) : cost costs i j = c := by
  rw [cost, cell_eq_ok_iff.mp h]
  rfl

theorem entry_of_lt {α : Type} {items : List α} {i : Nat} (h : i < items.length) :
    entry items i = .ok items[i] := by
  rw [entry, List.getElem?_eq_getElem h]

namespace Tableau

/-! ## Columns by number -/

/-- A column that does not exist: it is matched with no row and not reached. -/
def noColumn : Column := ⟨none, 0, 0, 0, false⟩

/-- The column of a number. -/
def nth (columns : List Column) (j : Nat) : Column := columns[j]?.getD noColumn

variable {columns : List Column} {j k : Nat}

theorem getElem?_eq_nth (h : j < columns.length) : columns[j]? = some (nth columns j) := by
  rw [nth, List.getElem?_eq_getElem h]
  rfl

theorem getElem_eq_nth (h : j < columns.length) : columns[j] = nth columns j := by
  rw [nth, List.getElem?_eq_getElem h]
  rfl

theorem nth_of_le (h : columns.length ≤ j) : nth columns j = noColumn := by
  rw [nth, List.getElem?_eq_none h]
  rfl

theorem lt_of_row {r : Nat} (h : (nth columns j).row = some r) : j < columns.length := by
  by_contra hle
  rw [nth_of_le (Nat.le_of_not_lt hle)] at h
  cases h

theorem lt_of_reached (h : (nth columns j).reached = true) : j < columns.length := by
  by_contra hle
  rw [nth_of_le (Nat.le_of_not_lt hle)] at h
  cases h

theorem nth_map (f : Column → Column) (h : j < columns.length) :
    nth (columns.map f) j = f (nth columns j) := by
  rw [nth, List.getElem?_map, getElem?_eq_nth h]
  rfl

theorem nth_map_zipIdx (f : Column × Nat → Column) (h : j < columns.length) :
    nth (columns.zipIdx.map f) j = f (nth columns j, j) := by
  rw [nth, List.getElem?_map, List.getElem?_zipIdx, getElem?_eq_nth h, Nat.zero_add]
  rfl

theorem nth_modify (f : Column → Column) (h : k < columns.length) :
    nth (columns.modify k f) j = if j = k then f (nth columns j) else nth columns j := by
  by_cases hj : j < columns.length
  · rw [nth, List.getElem?_modify, getElem?_eq_nth hj]
    by_cases hjk : j = k
    · simp [hjk]
    · have hkj : k ≠ j := fun hk => hjk hk.symm
      simp [hjk, hkj]
  · have hjk : j ≠ k := fun hk => hj (hk ▸ h)
    rw [if_neg hjk, nth_of_le (Nat.le_of_not_lt hj), nth_of_le]
    rw [List.length_modify]
    exact Nat.le_of_not_lt hj

/-! ## Looking at the arcs of a row -/

/-- What is known of a column once the arc of cost `weight` into it has been looked at. -/
def offered (weight rowDual : Int) (last : Nat) (c : Column) : Column :=
  if c.reached then c
  else if weight - rowDual - c.dual < c.slack then
    { c with slack := weight - rowDual - c.dual, via := last }
  else c

variable {costs : Array (Array Int)} {row last : Nat} {rowDual delta : Int} {c : Column}

theorem offer_eq (h : c.reached = false → cell costs row (j - 1) = .ok (cost costs row (j - 1)) ∧
      Cost.InRange (cost costs row (j - 1) - rowDual) ∧
      Cost.InRange (cost costs row (j - 1) - rowDual - c.dual)) :
    offer costs row rowDual last c j = .ok (offered (cost costs row (j - 1)) rowDual last c) := by
  unfold offer offered
  cases hc : c.reached with
  | true => rfl
  | false =>
    obtain ⟨hcell, hfirst, hsecond⟩ := h hc
    rw [if_neg Bool.false_ne_true, if_neg Bool.false_ne_true, hcell]
    simp only [bind, Except.bind, Cost.sub_eq_ok_iff.mpr ⟨hfirst, rfl⟩,
      Cost.sub_eq_ok_iff.mpr ⟨hsecond, rfl⟩]
    split <;> rfl

/-- The column `last` is reached. -/
def marked (columns : List Column) (last : Nat) : List Column :=
  columns.modify last fun c => { c with reached := true }

theorem nth_marked (h : last < columns.length) : nth (marked columns last) j =
    if j = last then { nth columns j with reached := true } else nth columns j :=
  nth_modify _ h

/-! ## The nearest column -/

/-- The fold of `nearest`: it keeps what it has, or it takes the slack of a column that is not
reached, and it ends below all of them. -/
theorem foldl_nearest (pairs : List (Column × Nat)) (least : Int × Nat) :
    let found := pairs.foldl (fun least (c, j) =>
      if !c.reached && decide (c.slack < least.1) then (c.slack, j) else least) least
    (found = least ∨ ∃ c j, (c, j) ∈ pairs ∧ c.reached = false ∧ found = (c.slack, j)) ∧
      found.1 ≤ least.1 ∧ ∀ c j, (c, j) ∈ pairs → c.reached = false → found.1 ≤ c.slack := by
  induction pairs generalizing least with
  | nil => exact ⟨.inl rfl, Int.le_refl _, fun c j h => by cases h⟩
  | cons pair pairs ih =>
    obtain ⟨c, j⟩ := pair
    rw [List.foldl_cons]
    by_cases hc : c.reached = false ∧ c.slack < least.1
    · have hcond : (!c.reached && decide (c.slack < least.1)) = true := by simp [hc]
      simp only [hcond, if_true]
      obtain ⟨hfound, hle, hall⟩ := ih (c.slack, j)
      refine ⟨.inr ?_, Int.le_trans hle (Int.le_of_lt hc.2), fun c' j' hmem hr => ?_⟩
      · obtain hfound | ⟨c', j', hmem, hr, hfound⟩ := hfound
        · exact ⟨c, j, List.mem_cons_self, hc.1, hfound⟩
        · exact ⟨c', j', List.mem_cons_of_mem _ hmem, hr, hfound⟩
      · rcases List.mem_cons.mp hmem with heq | hmem
        · cases heq
          exact hle
        · exact hall c' j' hmem hr
    · have hcond : ¬(!c.reached && decide (c.slack < least.1)) = true := by
        simp only [Bool.and_eq_true, Bool.not_eq_true', decide_eq_true_eq]
        exact hc
      simp only [hcond]
      obtain ⟨hfound, hle, hall⟩ := ih least
      refine ⟨?_, hle, fun c' j' hmem hr => ?_⟩
      · obtain hfound | ⟨c', j', hmem, hr, hfound⟩ := hfound
        · exact .inl hfound
        · exact .inr ⟨c', j', List.mem_cons_of_mem _ hmem, hr, hfound⟩
      · rcases List.mem_cons.mp hmem with heq | hmem
        · cases heq
          exact Int.le_trans hle (Int.not_lt.mp fun hlt => hc ⟨hr, hlt⟩)
        · exact hall c' j' hmem hr

/-- **The nearest column** is not reached, and no column that is not reached is nearer. -/
theorem nearest_spec (hk : k < columns.length) (hreached : (nth columns k).reached = false)
    (hslack : (nth columns k).slack < Cost.greatest) :
    (nearest columns).2 < columns.length ∧ (nth columns (nearest columns).2).reached = false ∧
      (nth columns (nearest columns).2).slack = (nearest columns).1 ∧
      ∀ j < columns.length, (nth columns j).reached = false →
        (nearest columns).1 ≤ (nth columns j).slack := by
  have hpair : ∀ j < columns.length, (nth columns j, j) ∈ columns.zipIdx := fun j hj =>
    List.mem_iff_getElem?.mpr ⟨j, by rw [List.getElem?_zipIdx, getElem?_eq_nth hj]; simp⟩
  obtain ⟨hfound, -, hall⟩ := foldl_nearest columns.zipIdx (Cost.greatest, 0)
  have hleast : ∀ j < columns.length, (nth columns j).reached = false →
      (nearest columns).1 ≤ (nth columns j).slack := fun j hj => hall _ j (hpair j hj)
  obtain hfound | ⟨c, j, hmem, hc, hfound⟩ := hfound
  · have := hleast k hk hreached
    rw [nearest, hfound] at this
    exact absurd hslack (Int.not_lt.mpr this)
  · have hj : columns[j]? = some c := List.mem_zipIdx_iff_getElem?.mp hmem
    have hc' : nth columns j = c := by rw [nth, hj]; rfl
    rw [nearest, hfound]
    exact ⟨(List.getElem?_eq_some_iff.mp hj).1, hc' ▸ hc, hc' ▸ rfl, fun j hj hr => by
      have := hleast j hj hr
      rwa [nearest, hfound] at this⟩

/-! ## Moving the duals -/

/-- Column `j` is reached and matched with the row `r`. -/
def ReachedBy (columns : List Column) (j r : Nat) : Prop :=
  (nth columns j).reached = true ∧ (nth columns j).row = some r

/-- Of the first `k` columns, those reached have had the duals of their rows raised. -/
structure Raised (columns : List Column) (delta : Int) (rowDuals : List Int) (k : Nat)
    (duals : List Int) : Prop where
  length : duals.length = rowDuals.length
  raised : ∀ j r, j < k → ReachedBy columns j r → duals.getD r 0 = rowDuals.getD r 0 + delta
  kept : ∀ r, (∀ j, j < k → ¬ReachedBy columns j r) → duals.getD r 0 = rowDuals.getD r 0

theorem getD_set {duals : List Int} {r r' : Nat} {d : Int} (h : r < duals.length) :
    (duals.set r d).getD r' 0 = if r' = r then d else duals.getD r' 0 := by
  by_cases hr : r' = r
  · simp [List.getD_eq_getElem?_getD, hr, h]
  · have hr' : r ≠ r' := fun he => hr he.symm
    simp [List.getD_eq_getElem?_getD, hr, hr']

theorem Raised.step {rowDuals duals : List Int} (h : Raised columns delta rowDuals k duals)
    (hinj : ∀ j j' r, ReachedBy columns j r → ReachedBy columns j' r → j = j')
    (hrange : ∀ r, ReachedBy columns k r →
      r < rowDuals.length ∧ Cost.InRange (rowDuals.getD r 0 + delta)) :
    ∃ duals', raise delta duals (nth columns k) = .ok duals' ∧
      Raised columns delta rowDuals (k + 1) duals' := by
  by_cases hreached : ∃ r, ReachedBy columns k r
  · obtain ⟨r, hr⟩ := hreached
    obtain ⟨hlt, hrange⟩ := hrange r hr
    have hlt' : r < duals.length := h.length ▸ hlt
    -- no other column has the same row
    have hfirst : duals.getD r 0 = rowDuals.getD r 0 := h.kept r fun j hj hjr => by
      have := hinj j k r hjr hr
      omega
    have hadd : Cost.add duals[r] delta = .ok (rowDuals.getD r 0 + delta) := by
      have hget : duals[r] = rowDuals.getD r 0 := by rw [← hfirst]; simp [hlt']
      rw [hget]
      exact Cost.add_eq_ok_iff.mpr ⟨hrange, rfl⟩
    refine ⟨duals.set r (rowDuals.getD r 0 + delta), ?_, ?_, fun j r' hj hr' => ?_,
      fun r' hr' => ?_⟩
    · rw [raise, hr.1, hr.2]
      simp only [entry_of_lt hlt', bind, Except.bind, hadd]
      rfl
    · rw [List.length_set, h.length]
    · rw [getD_set hlt']
      by_cases hrr : r' = r
      · rw [if_pos hrr, hrr]
      · rw [if_neg hrr]
        have hjk : j ≠ k := fun he => hrr (Option.some.inj ((he ▸ hr'.2).symm.trans hr.2))
        exact h.raised j r' (by omega) hr'
    · have hrr : r' ≠ r := fun he => hr' k (Nat.lt_succ_self k) (he ▸ hr)
      rw [getD_set hlt', if_neg hrr]
      exact h.kept r' fun j hj => hr' j (Nat.lt_succ_of_lt hj)
  · refine ⟨duals, ?_, h.length, fun j r hj hr => ?_, fun r hr => ?_⟩
    · unfold raise
      split
      · rename_i r hc₁ hc₂
        exact absurd ⟨r, hc₁, hc₂⟩ hreached
      · rfl
    · have hjk : j ≠ k := fun he => hreached ⟨r, he ▸ hr⟩
      exact h.raised j r (by omega) hr
    · exact h.kept r fun j hj => hr j (Nat.lt_succ_of_lt hj)

/-- **The duals of the rows that are matched with reached columns are raised**, each once. -/
theorem raise_total {rowDuals : List Int}
    (hinj : ∀ j j' r, ReachedBy columns j r → ReachedBy columns j' r → j = j')
    (hrange : ∀ j r, ReachedBy columns j r →
      r < rowDuals.length ∧ Cost.InRange (rowDuals.getD r 0 + delta)) :
    ∃ duals, columns.foldlM (raise delta) rowDuals = .ok duals ∧
      Raised columns delta rowDuals columns.length duals := by
  have hstart : Raised columns delta rowDuals 0 rowDuals :=
    ⟨rfl, fun j r hj => absurd hj (Nat.not_lt_zero j), fun _ _ => rfl⟩
  refine foldlM_inv hstart fun k duals c hc hraised => ?_
  have hnth : nth columns k = c := by rw [nth, hc]; rfl
  rw [← hnth]
  exact hraised.step hinj (hrange k)

/-- What becomes of a column when the duals are moved by `delta`. -/
def lowered (delta : Int) (c : Column) : Column :=
  if c.reached then { c with dual := c.dual - delta } else { c with slack := c.slack - delta }

theorem lower_eq (hdual : c.reached = true → Cost.InRange (c.dual - delta))
    (hslack : c.reached = false → Cost.InRange (c.slack - delta)) :
    lower delta c = .ok (lowered delta c) := by
  unfold lower lowered
  cases hc : c.reached with
  | true => simp [bind, Except.bind, Cost.sub_eq_ok_iff.mpr ⟨hdual hc, rfl⟩, pure, Except.pure]
  | false => simp [bind, Except.bind, Cost.sub_eq_ok_iff.mpr ⟨hslack hc, rfl⟩, pure, Except.pure]

/-! ## A step -/

/-- The columns once the column `last` is reached and the arcs of `row` have been looked at. -/
def looked (costs : Array (Array Int)) (t : Tableau) (last row : Nat) : List Column :=
  (marked t.columns last).zipIdx.map fun (c, j) =>
    offered (cost costs row (j - 1)) (t.rowDuals.getD row 0) last c

variable {t : Tableau}

@[simp] theorem length_looked : (looked costs t last row).length = t.columns.length := by
  simp [looked, marked]

theorem nth_looked (hlast : last < t.columns.length) (hj : j < t.columns.length) :
    nth (looked costs t last row) j =
      offered (cost costs row (j - 1)) (t.rowDuals.getD row 0) last
        (if j = last then { nth t.columns j with reached := true } else nth t.columns j) := by
  have hlen : (marked t.columns last).length = t.columns.length := List.length_modify ..
  rw [looked, nth_map_zipIdx _ (hlen.symm ▸ hj), nth_marked hlast]

/-- **A step answers** if the reduced costs, the raised duals and the lowered columns lie in
range. -/
theorem widen_total (hlast : last < t.columns.length) (hrow : row < t.rowDuals.length)
    (hoffer : ∀ j < t.columns.length, j ≠ last → (nth t.columns j).reached = false →
      cell costs row (j - 1) = .ok (cost costs row (j - 1)) ∧
      Cost.InRange (cost costs row (j - 1) - t.rowDuals.getD row 0) ∧
      Cost.InRange (cost costs row (j - 1) - t.rowDuals.getD row 0 - (nth t.columns j).dual))
    (hdelta : delta = (nearest (looked costs t last row)).1)
    (hinj : ∀ j j' r, ReachedBy (looked costs t last row) j r →
      ReachedBy (looked costs t last row) j' r → j = j')
    (hraise : ∀ j r, ReachedBy (looked costs t last row) j r →
      r < t.rowDuals.length ∧ Cost.InRange (t.rowDuals.getD r 0 + delta))
    (hlower : ∀ j < t.columns.length,
      ((nth (looked costs t last row) j).reached = true →
        Cost.InRange ((nth (looked costs t last row) j).dual - delta)) ∧
      ((nth (looked costs t last row) j).reached = false →
        Cost.InRange ((nth (looked costs t last row) j).slack - delta))) :
    ∃ duals, t.widen costs last row = .ok (⟨duals, (looked costs t last row).map (lowered delta)⟩,
        (nearest (looked costs t last row)).2) ∧
      Raised (looked costs t last row) delta t.rowDuals t.columns.length duals := by
  subst hdelta
  have hmarked : ∀ j, nth (marked t.columns last) j =
      if j = last then { nth t.columns j with reached := true } else nth t.columns j := fun j =>
    nth_marked hlast
  have hoffers : (marked t.columns last).zipIdx.mapM (fun (c, j) =>
      offer costs row (t.rowDuals.getD row 0) last c j) = .ok (looked costs t last row) := by
    refine mapM_eq_map fun (c, j) hmem => offer_eq fun hc => ?_
    have hj : (marked t.columns last)[j]? = some c := List.mem_zipIdx_iff_getElem?.mp hmem
    have hlt : j < t.columns.length := by
      have := (List.getElem?_eq_some_iff.mp hj).1
      rwa [marked, List.length_modify] at this
    have hnth : nth (marked t.columns last) j = c := by rw [nth, hj]; rfl
    have hne : j ≠ last := by
      intro he
      rw [hmarked, if_pos he] at hnth
      rw [← hnth] at hc
      cases hc
    rw [hmarked, if_neg hne] at hnth
    rw [← hnth] at hc ⊢
    exact hoffer j hlt hne hc
  obtain ⟨duals, hfold, hraised⟩ := raise_total hinj hraise
  have hlowers : (looked costs t last row).mapM (lower (nearest (looked costs t last row)).1) =
      .ok ((looked costs t last row).map (lowered (nearest (looked costs t last row)).1)) := by
    refine mapM_eq_map fun c hc => ?_
    obtain ⟨j, hj, rfl⟩ := List.mem_iff_getElem.mp hc
    rw [getElem_eq_nth hj]
    rw [length_looked] at hj
    exact lower_eq (hlower j hj).1 (hlower j hj).2
  rw [length_looked] at hraised
  refine ⟨duals, ?_, hraised⟩
  have hentry : entry t.rowDuals row = .ok (t.rowDuals.getD row 0) := by
    rw [entry_of_lt hrow]
    simp [hrow]
  rw [widen, hentry]
  simp only [bind, Except.bind]
  rw [show t.columns.modify last _ = marked t.columns last from rfl, hoffers]
  simp only [hfold, hlowers]
  rfl

end Tableau

end Fathom.Routing.Assignment
