import Fathom.Proofs.Routing.Optimum

/-!
# The loops of the Hungarian method

Neither of the two loops that place a row counts its steps. The search ends because every step
reaches a column that was not reached before, and one column is still free; the change ends because
the predecessors, which are kept from one row to the next, lead from the column that was found back
to the entry. A `Course` records both: the columns a loop comes to, none of them twice, and that the
loop takes as many steps.

All arithmetic is checked, so that solving answers says that no index is out of range and that no
result is: the duals are moved many times, but the column that is still free holds them between the
costs.

Results:
* `Ready.solve_bounds`: the duals of a solution are small;
* `solve_loops`: **solving answers**, with small duals, and each of its loops ends.
-/

namespace Fathom.Routing.Assignment

open Tableau

variable {a : Assignment} {most C : Int}

namespace Tableau.Placed

variable {costs : Array (Array Int)} {t : Tableau}

/-- The row duals are costs, up to sign, once all rows are placed. -/
theorem rowDuals_bounds (h : Placed costs most costs.size t) :
    ∀ u ∈ t.rowDuals, -most ≤ u ∧ u ≤ most := by
  intro u hu
  obtain ⟨r, hr, rfl⟩ := List.mem_iff_getElem.mp hu
  have hbounds := h.rows (h.matching.rowDuals ▸ hr)
  rwa [rowDual, List.getD_eq_getElem?_getD, List.getElem?_eq_getElem hr, Option.getD_some]
    at hbounds

/-- The column duals are not positive, and not below the difference of two costs. -/
theorem columnDuals_bounds (h : Placed costs most costs.size t) :
    ∀ v ∈ t.columns.tail.map Column.dual, -(2 * most) ≤ v ∧ v ≤ 0 := by
  intro v hv
  obtain ⟨c, hc, rfl⟩ := List.mem_map.mp hv
  obtain ⟨j, hj, rfl⟩ := List.mem_iff_getElem.mp hc
  have hlt : j + 1 < t.columns.length := by
    rw [List.length_tail] at hj
    omega
  have hbounds := h.duals (Nat.succ_pos j)
  rwa [column, ← getElem_eq_nth hlt, ← List.getElem_tail] at hbounds

end Tableau.Placed

/-- **Solving answers, with small duals.** -/
theorem Ready.solve_bounds (h : Ready most a) : ∃ b, a.solve = .ok b ∧
    b.rowDuals.length = a.costs.size ∧ b.columnDuals.length = a.costs.size ∧
    b.columns.length = a.costs.size ∧ (∀ u ∈ b.rowDuals, -most ≤ u ∧ u ≤ most) ∧
    ∀ v ∈ b.columnDuals, -(2 * most) ≤ v ∧ v ≤ 0 := by
  obtain ⟨t, p, columns, hsolve, ht, hrecorded, -⟩ := h.solve_total
  refine ⟨_, hsolve, ht.matching.rowDuals, ?_, hrecorded.length, ht.rowDuals_bounds,
    ht.columnDuals_bounds⟩
  rw [List.length_map, List.length_tail, ht.matching.columns, Nat.add_sub_cancel]

/-- A bound of the absolute values of the costs is not negative, if there are any. -/
theorem nonneg_of_bounds {costs : Array (Array Int)} (hpos : 0 < costs.size)
    (hrows : ∀ row ∈ costs, costs.size ≤ row.size)
    (hcosts : ∀ row ∈ costs, ∀ c ∈ row, -C ≤ c ∧ c ≤ C) : 0 ≤ C := by
  have hrow : costs[0] ∈ costs := Array.getElem_mem hpos
  have hlt : 0 < costs[0].size := Nat.lt_of_lt_of_le hpos (hrows _ hrow)
  have hbounds := hcosts _ hrow _ (Array.getElem_mem hlt)
  omega

/-- **The loops of the method end, stay in bounds and do not overflow.** If `4 (n + 1) C` is a cost,
where `C` bounds the absolute values of the `n` rows of costs, solving answers: the row duals are
between `-C` and `C`, the column duals between `-2 C` and zero. Each row is placed by a search that
visits no column twice, and by a walk along the predecessors that ends at the entry. -/
theorem solve_loops (hcolumns : a.columns.length = a.costs.size)
    (hrows : ∀ row ∈ a.costs, a.costs.size ≤ row.size)
    (hcosts : ∀ row ∈ a.costs, ∀ c ∈ row, -C ≤ c ∧ c ≤ C)
    (hroom : 4 * (a.costs.size + 1) * C ≤ Cost.greatest) :
    (∃ b, a.solve = .ok b ∧
      b.rowDuals.length = a.costs.size ∧ b.columnDuals.length = a.costs.size ∧
      b.columns.length = a.costs.size ∧ (∀ u ∈ b.rowDuals, -C ≤ u ∧ u ≤ C) ∧
      ∀ v ∈ b.columnDuals, -(2 * C) ≤ v ∧ v ≤ 0) ∧
    ∀ i < a.costs.size, ∃ t visited t₁ found walk t',
      (List.range i).foldlM (Tableau.place a.costs) (start a.costs.size) = .ok t ∧
      Course a.costs i t visited t₁ found walk t' ∧ t.place a.costs i = .ok t' := by
  have hroom' : 4 * (a.costs.size + 1) * max C 0 ≤ Cost.greatest := by
    rcases Int.le_total C 0 with hC | hC
    · rw [Int.max_eq_right hC, Int.mul_zero]
      decide
    · rwa [Int.max_eq_left hC]
  have hready : Ready (max C 0) a :=
    ⟨.of_rows hrows hcosts (Int.le_max_left ..) (Int.le_max_right ..) hroom', hcolumns⟩
  refine ⟨?_, fun i hi => ?_⟩
  · obtain ⟨b, hb, hu, hv, hj, hus, hvs⟩ := hready.solve_bounds
    have hmax : ∀ {items : List Int}, items.length = a.costs.size → ∀ x ∈ items, max C 0 = C := by
      intro items hlength x hx
      have hpos : 0 < a.costs.size := hlength ▸ List.length_pos_of_mem hx
      exact Int.max_eq_left (nonneg_of_bounds hpos hrows hcosts)
    exact ⟨b, hb, hu, hv, hj, fun u hmem => hmax hu u hmem ▸ hus u hmem,
      fun v hmem => hmax hv v hmem ▸ hvs v hmem⟩
  · obtain ⟨t, hfirst, ht⟩ := Placed.first hready.within (Nat.le_of_lt hi)
    obtain ⟨visited, t₁, found, walk, t', hcourse, hplace, -⟩ := ht.place hready.within hi
    exact ⟨t, visited, t₁, found, walk, t', hfirst, hcourse, hplace⟩

/-- Three rows that all want the first column. -/
def products : Assignment :=
  ⟨#[#[1, 2, 3], #[2, 4, 6], #[3, 6, 9]], [0, 0, 0], [0, 0, 0], [0, 0, 0], 0⟩

/-- The last row gets the first column, and its search visits all columns to find out. -/
theorem products_loops :
    (∃ b, products.solve = .ok b ∧
      (b.columns, b.rowDuals, b.columnDuals) = ([2, 1, 0], [3, 5, 6], [-3, -1, 0]) ∧
      (∀ u ∈ b.rowDuals, -9 ≤ u ∧ u ≤ 9) ∧ ∀ v ∈ b.columnDuals, -(2 * 9) ≤ v ∧ v ≤ 0) ∧
    ∃ t visited t₁ found walk t',
      (List.range 2).foldlM (Tableau.place products.costs) (start 3) = .ok t ∧
      Course products.costs 2 t visited t₁ found walk t' ∧ visited.length = 4 ∧
      t.place products.costs 2 = .ok t' := by
  obtain ⟨⟨b, hb, -, -, -, hus, hvs⟩, hloops⟩ :=
    solve_loops (a := products) (C := 9) rfl (by decide) (by decide) (by decide)
  have hsolution : products.solve.map (fun b => (b.columns, b.rowDuals, b.columnDuals)) =
      .ok ([2, 1, 0], [3, 5, 6], [-3, -1, 0]) := by decide
  rw [hb] at hsolution
  refine ⟨⟨b, hb, Except.ok.inj hsolution, hus, hvs⟩, ?_⟩
  obtain ⟨t, visited, t₁, found, walk, t', hfirst, hcourse, hplace⟩ := hloops 2 (by decide)
  refine ⟨t, visited, t₁, found, walk, t', hfirst, hcourse, Nat.le_antisymm ?_ ?_, hplace⟩
  · exact length_le_of_nodup hcourse.visited_nodup hcourse.visited_le
  · -- with fuel for three columns the search does not end
    have hthree : ((List.range 2).foldlM (Tableau.place products.costs)
        (start products.costs.size)).bind (fun t =>
          ((t.enter 2).search products.costs 3 0).map Prod.snd) = .error .unfinished := by decide
    by_contra hshort
    rw [hfirst, Except.bind, hcourse.search, if_pos (by omega)] at hthree
    cases hthree

end Fathom.Routing.Assignment
