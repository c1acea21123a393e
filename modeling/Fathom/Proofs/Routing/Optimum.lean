import Fathom.Proofs.Routing.Placement
import Mathlib.Algebra.BigOperators.Fin
import Mathlib.Algebra.Order.BigOperators.Group.Finset

/-!
# The assignment is optimal

Once all rows are placed, the tableau is a permutation with tight arcs under feasible duals. Weak
duality does the rest: the duals bound the cost of every permutation from below, and they sum to the
cost of this one (`total_le_total`).

Results:
* `Ready.solve_total`: a problem with costs in range is solved;
* `Ready.solve`: its solution is optimal;
* `solve_optimal`: **so is every problem reached from a cost matrix**, however often it was solved
  and arcs were forbidden before.
-/

namespace Fathom.Routing.Assignment

open Tableau

/-! ## Optimal assignments -/

/-- The cost of a permutation of the columns. -/
def total (costs : Array (Array Int)) (p : Equiv.Perm (Fin costs.size)) : Int :=
  ∑ i : Fin costs.size, cost costs i (p i)

/-- **The solution is optimal**: its columns are those of the permutation `p`, none costs less, and
its duals show that. -/
structure Optimal (a : Assignment) (p : Equiv.Perm (Fin a.costs.size)) : Prop where
  columns : ∀ i : Fin a.costs.size, a.columns[(i : Nat)]? = some (p i : Nat)
  value : a.value = total a.costs p
  least : ∀ q, a.value ≤ total a.costs q
  nonneg : ∀ i j : Fin a.costs.size, ∃ c, a.reducedCost i j = .ok c ∧ 0 ≤ c
  zero : ∀ i : Fin a.costs.size, a.reducedCost i (p i) = .ok 0

/-- **Weak duality**: feasible duals that are tight for a permutation show that it is cheapest. -/
theorem total_le_total {costs : Array (Array Int)} (rows columns : Fin costs.size → Int)
    {p : Equiv.Perm (Fin costs.size)}
    (htight : ∀ i : Fin costs.size, cost costs i (p i) = rows i + columns (p i))
    (hfeasible : ∀ i j : Fin costs.size, rows i + columns j ≤ cost costs i j)
    (q : Equiv.Perm (Fin costs.size)) : total costs p ≤ total costs q := by
  calc total costs p = ∑ i, (rows i + columns (p i)) := Finset.sum_congr rfl fun i _ => htight i
    _ = ∑ i, rows i + ∑ j, columns j := by rw [Finset.sum_add_distrib, Equiv.sum_comp p]
    _ = ∑ i, (rows i + columns (q i)) := by rw [Finset.sum_add_distrib, Equiv.sum_comp q]
    _ ≤ total costs q := Finset.sum_le_sum fun i _ => hfeasible i (q i)

variable {costs : Array (Array Int)} {most : Int} {t : Tableau}

/-! ## Reading the solution off the tableau -/

/-- A matching of all rows is a permutation. -/
theorem Tableau.Matching.exists_perm (h : Matching costs costs.size t) :
    ∃ p : Equiv.Perm (Fin costs.size), ∀ r, (t.column (p r + 1)).row = some (r : Nat) := by
  have hmatched : ∀ r : Fin costs.size, ∃ j : Fin costs.size,
      (t.column (j + 1)).row = some (r : Nat) := by
    intro r
    obtain ⟨j, hj, hrow⟩ := h.onto r.2
    have hle := h.le_size hrow
    refine ⟨⟨j - 1, by omega⟩, ?_⟩
    dsimp only
    rw [Nat.sub_add_cancel hj]
    exact hrow
  choose f hf using hmatched
  have hinj : Function.Injective f := by
    intro r r' he
    exact Fin.ext (Option.some.inj ((hf r).symm.trans (he ▸ hf r')))
  exact ⟨Equiv.ofBijective f (Finite.injective_iff_bijective.mp hinj), hf⟩

/-- The columns below `k` are recorded at their rows. -/
structure Recorded (p : Equiv.Perm (Fin costs.size)) (k : Nat) (columns : List Nat) : Prop where
  length : columns.length = costs.size
  recorded : ∀ r : Fin costs.size, (p r : Nat) < k → columns[(r : Nat)]? = some (p r : Nat)

theorem Recorded.step {p : Equiv.Perm (Fin costs.size)} {k : Nat} {columns : List Nat} {c : Column}
    (h : Recorded p k columns) (hp : ∀ r, (t.column (p r + 1)).row = some (r : Nat))
    (hk : k < costs.size) (hc : t.columns[k + 1]? = some c) :
    ∃ columns', record columns (c, k) = .ok columns' ∧ Recorded p (k + 1) columns' := by
  obtain ⟨r, hr⟩ := p.surjective ⟨k, hk⟩
  have hrow : c.row = some (r : Nat) := by
    have hcolumn : t.column (k + 1) = c := by
      rw [column, nth, hc]
      rfl
    rw [← hcolumn, ← hp r, hr]
  refine ⟨columns.set r k, ?_, (List.length_set ..).trans h.length, fun r' hr' => ?_⟩
  · simp only [record, hrow, h.length, r.2, if_true]
  · by_cases hrr : r' = r
    · have hlt : (r : Nat) < columns.length := h.length.symm ▸ r.2
      rw [hrr, hr, List.getElem?_set_self hlt]
    · have hne : (p r' : Nat) ≠ k := fun he => hrr (p.injective (Fin.ext (he.trans (by rw [hr]))))
      rw [List.getElem?_set_ne fun he => hrr (Fin.ext he.symm)]
      exact h.recorded r' (by omega)

/-- The columns of the rows are recorded. -/
theorem record_total (h : Matching costs costs.size t) {p : Equiv.Perm (Fin costs.size)}
    (hp : ∀ r, (t.column (p r + 1)).row = some (r : Nat)) {columns : List Nat}
    (hlength : columns.length = costs.size) :
    ∃ columns', t.columns.tail.zipIdx.foldlM record columns = .ok columns' ∧
      Recorded p costs.size columns' := by
  have hstart : Recorded p 0 columns := ⟨hlength, fun _ hr => absurd hr (Nat.not_lt_zero _)⟩
  have hstep : ∀ k columns item, t.columns.tail.zipIdx[k]? = some item → Recorded p k columns →
      ∃ columns', record columns item = .ok columns' ∧ Recorded p (k + 1) columns' := by
    rintro k columns ⟨c, j⟩ hitem hk
    rw [List.getElem?_zipIdx, List.getElem?_tail] at hitem
    obtain ⟨_, hc, hcj⟩ := Option.map_eq_some_iff.mp hitem
    cases hcj
    have hlt : k < costs.size := by
      have := (List.getElem?_eq_some_iff.mp hc).1
      rw [h.columns] at this
      exact Nat.lt_of_succ_lt_succ this
    rw [Nat.zero_add]
    exact hk.step hp hlt hc
  have hloop := foldlM_inv hstart hstep
  rwa [List.length_zipIdx, List.length_tail, h.columns, Nat.add_sub_cancel] at hloop

/-- The costs of the columns of the first `k` rows have been summed. -/
structure Summed (costs : Array (Array Int)) (most : Int) (columns : List Nat) (k : Nat)
    (value : Int) : Prop where
  sum : value = ∑ i ∈ Finset.range k, cost costs i (columns.getD i 0)
  low : -(k * most) ≤ value
  high : value ≤ k * most

theorem Summed.step {k j : Nat} {columns : List Nat} {value : Int} (hw : Within costs most)
    (h : Summed costs most columns k value) (hk : k < costs.size) (hj : columns[k]? = some j)
    (hlt : j < costs.size) : ∃ value',
      (do Cost.add value (← cell costs k j)) = .ok value' ∧
        Summed costs most columns (k + 1) value' := by
  obtain ⟨hsum, hlow, hhigh⟩ := h
  have hge := hw.ge hk hlt
  have hle := hw.le hk hlt
  have hget : columns.getD k 0 = j := by rw [List.getD_eq_getElem?_getD, hj, Option.getD_some]
  have hlow' : -((k + 1 : Nat) * most) ≤ value + cost costs k j := by
    rw [Int.natCast_succ, Int.add_mul, Int.one_mul]
    omega
  have hhigh' : value + cost costs k j ≤ (k + 1 : Nat) * most := by
    rw [Int.natCast_succ, Int.add_mul, Int.one_mul]
    omega
  have hadd : Cost.add value (cost costs k j) = .ok (value + cost costs k j) :=
    Cost.add_eq_ok_iff.mpr ⟨hw.inRange_total hk hlow' hhigh', rfl⟩
  refine ⟨value + cost costs k j, ?_, ?_, hlow', hhigh'⟩
  · simp only [hw.cell hk hlt, bind, Except.bind, hadd]
  · rw [Finset.sum_range_succ, hget, ← hsum]

/-- The costs of the recorded columns sum to the cost of the permutation. -/
theorem value_total (hw : Within costs most) {p : Equiv.Perm (Fin costs.size)} {columns : List Nat}
    (h : Recorded p costs.size columns) :
    columns.zipIdx.foldlM (fun total (j, i) => do Cost.add total (← cell costs i j)) 0 =
      .ok (total costs p) := by
  have hcolumns : ∀ r : Fin costs.size, columns[(r : Nat)]? = some (p r : Nat) := fun r =>
    h.recorded r (p r).2
  have hstart : Summed costs most columns 0 0 := ⟨by simp, by simp, by simp⟩
  have hloop : ∃ value, columns.zipIdx.foldlM (fun total (j, i) => do
      Cost.add total (← cell costs i j)) 0 = .ok value ∧
        Summed costs most columns columns.zipIdx.length value := by
    refine foldlM_inv hstart ?_
    rintro k value ⟨j, i⟩ hitem hk
    rw [List.getElem?_zipIdx] at hitem
    obtain ⟨_, hj, hji⟩ := Option.map_eq_some_iff.mp hitem
    cases hji
    have hlt : k < costs.size := h.length ▸ (List.getElem?_eq_some_iff.mp hj).1
    have hjp : j = (p ⟨k, hlt⟩ : Nat) := Option.some.inj (hj.symm.trans (hcolumns ⟨k, hlt⟩))
    rw [Nat.zero_add]
    exact hk.step hw hlt hj (hjp ▸ (p ⟨k, hlt⟩).2)
  obtain ⟨value, hok, hsum, -, -⟩ := hloop
  rw [List.length_zipIdx, h.length, Finset.sum_range] at hsum
  rw [hok, hsum, total]
  refine congrArg _ (Finset.sum_congr rfl fun r _ => ?_)
  rw [List.getD_eq_getElem?_getD, hcolumns r, Option.getD_some]

/-! ## Solving -/

theorem Within.of_cell (h : ∀ i j, i < costs.size → j < costs.size →
      ∃ c, Assignment.cell costs i j = .ok c ∧ -most ≤ c ∧ c ≤ most)
    (hnonneg : 0 ≤ most) (hroom : 4 * (costs.size + 1) * most ≤ Cost.greatest) :
    Within costs most := by
  refine ⟨fun {i j} hi hj => ?_, fun {i j} hi hj => ?_, fun {i j} hi hj => ?_, hnonneg, hroom⟩
  all_goals obtain ⟨c, hc, hlow, hhigh⟩ := h i j hi hj
  · rw [hc, cost_of_cell hc]
  · rw [cost_of_cell hc]
    exact hhigh
  · rw [cost_of_cell hc]
    exact hlow

/-- The problem can be solved: its costs are in range, and it has room for a column of each row. -/
structure Ready (most : Int) (a : Assignment) : Prop where
  within : Within a.costs most
  columns : a.columns.length = a.costs.size

namespace Ready

variable {a b : Assignment} {i j : Nat}

/-- Reduced costs under the duals of a tableau. -/
theorem reducedCost_eq (h : Ready most a) (ht : Placed a.costs most a.costs.size t)
    (hrows : a.rowDuals = t.rowDuals) (hcolumns : a.columnDuals = t.columns.tail.map Column.dual)
    (hi : i < a.costs.size) (hj : j < a.costs.size) :
    a.reducedCost i j = .ok (reduced a.costs t i (j + 1)) := by
  have hmost := h.within.nonneg
  have hrow : entry a.rowDuals i = .ok (t.rowDual i) := by
    have hlt : i < t.rowDuals.length := ht.matching.rowDuals.symm ▸ hi
    rw [hrows, entry_of_lt hlt, rowDual, List.getD_eq_getElem?_getD, List.getElem?_eq_getElem hlt,
      Option.getD_some]
  have hcolumn : entry a.columnDuals j = .ok (t.column (j + 1)).dual := by
    have hlt : j + 1 < t.columns.length := by
      rw [ht.matching.columns]
      omega
    rw [hcolumns, entry, List.getElem?_map, List.getElem?_tail, getElem?_eq_nth hlt]
    rfl
  have hge := h.within.ge hi hj
  have hle := h.within.le hi hj
  have hbounds := ht.rows hi
  have hdual := ht.duals (j := j + 1) (Nat.succ_pos j)
  have hfirst : Cost.sub (cost a.costs i j) (t.rowDual i) = .ok (cost a.costs i j - t.rowDual i) :=
    Cost.sub_eq_ok_iff.mpr ⟨h.within.inRange (by omega) (by omega), rfl⟩
  have hsecond : Cost.sub (cost a.costs i j - t.rowDual i) (t.column (j + 1)).dual =
      .ok (reduced a.costs t i (j + 1)) :=
    Cost.sub_eq_ok_iff.mpr ⟨h.within.inRange (by omega) (by omega), rfl⟩
  rw [reducedCost, h.within.cell hi hj, hrow, hcolumn]
  simp only [bind, Except.bind, hfirst, hsecond]

/-- **Solving answers**: the solution is a permutation that is read off a tableau of all rows. -/
theorem solve_total (h : Ready most a) :
    ∃ (t : Tableau) (p : Equiv.Perm (Fin a.costs.size)) (columns : List Nat),
      a.solve = .ok ⟨a.costs, t.rowDuals, t.columns.tail.map Column.dual, columns,
        total a.costs p⟩ ∧
      Placed a.costs most a.costs.size t ∧ Recorded p a.costs.size columns ∧
      ∀ r, (t.column (p r + 1)).row = some (r : Nat) := by
  obtain ⟨t, hall, ht⟩ := Placed.first h.within (Nat.le_refl _)
  obtain ⟨p, hp⟩ := ht.matching.exists_perm
  obtain ⟨columns, hrecord, hrecorded⟩ := record_total ht.matching hp h.columns
  have hvalue := value_total h.within hrecorded
  refine ⟨t, p, columns, ?_, ht, hrecorded, hp⟩
  exact bind_eq_ok_iff.mpr ⟨t, hall, bind_eq_ok_iff.mpr ⟨columns, hrecord,
    bind_eq_ok_iff.mpr ⟨_, hvalue, rfl⟩⟩⟩

/-- **A solution answers, and is optimal.** -/
theorem solve (h : Ready most a) :
    ∃ b, a.solve = .ok b ∧ b.costs = a.costs ∧ Ready most b ∧ ∃ p, Optimal b p := by
  obtain ⟨t, p, columns, hsolve, ht, hrecorded, hp⟩ := h.solve_total
  let b : Assignment :=
    ⟨a.costs, t.rowDuals, t.columns.tail.map Column.dual, columns, total a.costs p⟩
  have hready : Ready most b := ⟨h.within, hrecorded.length⟩
  have hreduced : ∀ i j : Fin a.costs.size,
      b.reducedCost i j = .ok (reduced a.costs t i (j + 1)) := fun i j =>
    hready.reducedCost_eq ht rfl rfl i.2 j.2
  have hfeasible : ∀ i j : Fin a.costs.size, 0 ≤ reduced a.costs t i (j + 1) := fun i j =>
    ht.matching.feasible i.2 (Nat.succ_pos _) j.2
  have htight : ∀ i : Fin a.costs.size, reduced a.costs t i (p i + 1) = 0 := fun i =>
    ht.matching.tight (Nat.succ_pos _) (hp i)
  have hreduced_eq : ∀ i j : Fin a.costs.size, reduced a.costs t i (j + 1) =
      cost a.costs i j - t.rowDual i - (t.column (j + 1)).dual := fun i j => rfl
  have hsum : ∀ i : Fin a.costs.size,
      cost a.costs i (p i) = t.rowDual i + (t.column (p i + 1)).dual := by
    intro i
    have := hreduced_eq i (p i)
    rw [htight] at this
    omega
  have hbelow : ∀ i j : Fin a.costs.size,
      t.rowDual i + (t.column (j + 1)).dual ≤ cost a.costs i j := by
    intro i j
    have := hreduced_eq i j
    have := hfeasible i j
    omega
  have hleast := total_le_total (fun i => t.rowDual i) (fun j => (t.column (j + 1)).dual)
    hsum hbelow
  refine ⟨b, hsolve, rfl, hready, p, fun r => hrecorded.recorded r (p r).2, rfl, hleast,
    fun i j => ⟨_, hreduced i j, hfeasible i j⟩, fun i => ?_⟩
  rw [hreduced, htight]

end Ready

variable {a b : Assignment} {i j : Nat}

/-- Solving leaves the costs as they are. -/
theorem costs_solve (h : a.solve = .ok b) : b.costs = a.costs := by
  obtain ⟨_, -, h⟩ := bind_eq_ok_iff.mp h
  obtain ⟨_, -, h⟩ := bind_eq_ok_iff.mp h
  obtain ⟨_, -, h⟩ := bind_eq_ok_iff.mp h
  cases h
  rfl

/-! ## Forbidding arcs -/

/-- An arc of the matrix can be forbidden. -/
theorem remove_total {c : Int} (h : cell a.costs i j = .ok c) : ∃ b, a.remove i j = .ok b :=
  ⟨_, bind_eq_ok_iff.mpr ⟨c, h, rfl⟩⟩

theorem size_remove (h : a.remove i j = .ok b) : b.costs.size = a.costs.size := by
  obtain ⟨_, -, hb⟩ := bind_eq_ok_iff.mp h
  cases hb
  exact Array.size_modify ..

/-- Forbidding an arc changes its cost, and no other. -/
theorem cell_remove (h : a.remove i j = .ok b) (i' j' : Nat) :
    cell b.costs i' j' = if i' = i ∧ j' = j then .ok forbidden else cell a.costs i' j' := by
  obtain ⟨c, hc, hb⟩ := bind_eq_ok_iff.mp h
  cases hb
  unfold cell at hc ⊢
  rw [Array.getElem?_modify]
  by_cases hi : i' = i
  · subst hi
    cases hrow : a.costs[i']? with
    | none => simp [hrow] at hc
    | some row =>
      simp only [hrow, if_true, Option.map_some, true_and] at hc ⊢
      by_cases hj : j' = j
      · subst hj
        cases hcell : row[j']? with
        | none => simp [hcell] at hc
        | some c' =>
          have hlt : j' < row.size := (Array.getElem?_eq_some_iff.mp hcell).1
          simp [hlt]
      · have hj' : j ≠ j' := fun he => hj he.symm
        simp [hj, hj']
  · have hi' : i ≠ i' := fun he => hi he.symm
    simp [hi, hi']

theorem Ready.remove (h : Ready most a) (hmost : forbidden ≤ most) (hb : a.remove i j = .ok b) :
    Ready most b := by
  have hsize := size_remove hb
  have hcolumns : b.columns = a.columns := by
    obtain ⟨_, -, hb⟩ := bind_eq_ok_iff.mp hb
    cases hb
    rfl
  refine ⟨.of_cell (fun i' j' hi hj => ?_) h.within.nonneg (hsize ▸ h.within.room), ?_⟩
  · rw [hsize] at hi hj
    rw [cell_remove hb]
    split
    · have hforbidden : (0 : Int) ≤ forbidden := by decide
      exact ⟨forbidden, rfl, by omega, hmost⟩
    · exact ⟨_, h.within.cell hi hj, h.within.ge hi hj, h.within.le hi hj⟩
  · rw [hcolumns, hsize, h.columns]

/-- The problems reached from a cost matrix by forbidding arcs and by solving. -/
inductive Kept (costs : Array (Array Int)) : Assignment → Prop
  | ofCosts {a : Assignment} : ofCosts costs = .ok a → Kept costs a
  | remove {a b : Assignment} {i j : Nat} : Kept costs a → a.remove i j = .ok b → Kept costs b
  | solve {a b : Assignment} : Kept costs a → a.solve = .ok b → Kept costs b

/-- Small costs are in range. -/
theorem Within.of_rows {C : Int} (hrows : ∀ row ∈ costs, costs.size ≤ row.size)
    (hcosts : ∀ row ∈ costs, ∀ c ∈ row, -C ≤ c ∧ c ≤ C) (hmost : C ≤ most) (hnonneg : 0 ≤ most)
    (hroom : 4 * (costs.size + 1) * most ≤ Cost.greatest) : Within costs most := by
  refine .of_cell (fun i j hi hj => ?_) hnonneg hroom
  have hrow : costs[i] ∈ costs := Array.getElem_mem hi
  have hj' : j < costs[i].size := Nat.lt_of_lt_of_le hj (hrows _ hrow)
  obtain ⟨hlow, hhigh⟩ := hcosts _ hrow _ (Array.getElem_mem hj')
  refine ⟨costs[i][j], cell_eq_ok_iff.mpr ?_, by omega, by omega⟩
  rw [Array.getElem?_eq_getElem hi, Option.bind_some, Array.getElem?_eq_getElem hj']

/-- A matrix with small costs can be solved. -/
theorem Ready.ofCosts {C : Int} (hrows : ∀ row ∈ costs, costs.size ≤ row.size)
    (hcosts : ∀ row ∈ costs, ∀ c ∈ row, -C ≤ c ∧ c ≤ C)
    (hroom : 4 * (costs.size + 1) * max C forbidden ≤ Cost.greatest) :
    Ready (max C forbidden) ⟨costs, List.replicate costs.size 0, List.replicate costs.size 0,
      List.replicate costs.size 0, 0⟩ := by
  have hnonneg : 0 ≤ max C forbidden := Int.le_trans (by decide) (Int.le_max_right C forbidden)
  exact ⟨.of_rows hrows hcosts (Int.le_max_left ..) hnonneg hroom, List.length_replicate⟩

/-- **Solving stays possible**, whatever has been solved and forbidden before. -/
theorem Kept.ready {C : Int} (hrows : ∀ row ∈ costs, costs.size ≤ row.size)
    (hcosts : ∀ row ∈ costs, ∀ c ∈ row, -C ≤ c ∧ c ≤ C)
    (hroom : 4 * (costs.size + 1) * max C forbidden ≤ Cost.greatest) (h : Kept costs a) :
    Ready (max C forbidden) a := by
  have hsolve : ∀ {a b : Assignment}, Ready (max C forbidden) a → a.solve = .ok b →
      Ready (max C forbidden) b := by
    intro a b ha hb
    obtain ⟨b', hb', -, hready, -⟩ := ha.solve
    cases hb.symm.trans hb'
    exact hready
  induction h with
  | ofCosts ha => exact hsolve (.ofCosts hrows hcosts hroom) ha
  | remove _ hb ih => exact ih.remove (Int.le_max_right ..) hb
  | solve _ hb ih => exact hsolve ih hb

/-- **The solution of a cost matrix is optimal, with optimal duals**, and so is every later one: as
long as the costs leave room for sums, solving answers whatever has been solved and forbidden
before. -/
theorem solve_optimal {C : Int} (hrows : ∀ row ∈ costs, costs.size ≤ row.size)
    (hcosts : ∀ row ∈ costs, ∀ c ∈ row, -C ≤ c ∧ c ≤ C)
    (hroom : 4 * (costs.size + 1) * max C forbidden ≤ Cost.greatest) :
    (∃ a, ofCosts costs = .ok a ∧ a.costs = costs ∧ ∃ p, Optimal a p) ∧
      ∀ a, Kept costs a →
        (∀ i j c, cell a.costs i j = .ok c → ∃ b, a.remove i j = .ok b) ∧
        ∃ b, a.solve = .ok b ∧ b.costs = a.costs ∧ ∃ p, Optimal b p := by
  obtain ⟨a, ha, hsame, -, hoptimal⟩ := (Ready.ofCosts hrows hcosts hroom).solve
  refine ⟨⟨a, ha, hsame, hoptimal⟩, fun a ha => ⟨fun i j c => remove_total, ?_⟩⟩
  obtain ⟨b, hb, hsame, -, hoptimal⟩ := (ha.ready hrows hcosts hroom).solve
  exact ⟨b, hb, hsame, hoptimal⟩

/-- Two rows that both want the second column. -/
def contested : Array (Array Int) := #[#[4, 1], #[2, -3]]

/-- The second column goes to the second row, and to the first one if that is forbidden. -/
theorem contested_optimal : ∃ a b c,
    ofCosts contested = .ok a ∧ (a.columns, a.value) = ([0, 1], 1) ∧ (∃ p, Optimal a p) ∧
      a.remove 1 1 = .ok b ∧ b.solve = .ok c ∧ (c.columns, c.value) = ([1, 0], 3) ∧
        ∃ p, Optimal c p := by
  have hrows : ∀ row ∈ contested, contested.size ≤ row.size := by decide
  have hcosts : ∀ row ∈ contested, ∀ c ∈ row, -4 ≤ c ∧ c ≤ 4 := by decide
  have hroom : 4 * (contested.size + 1) * max 4 forbidden ≤ Cost.greatest := by decide
  obtain ⟨⟨a, ha, hsame, hoptimal⟩, hkept⟩ := solve_optimal hrows hcosts hroom
  obtain ⟨b, hb⟩ := (hkept a (.ofCosts ha)).1 1 1 (-3) (hsame ▸ rfl)
  obtain ⟨c, hc, -, hoptimal'⟩ := (hkept b (.remove (.ofCosts ha) hb)).2
  have hfirst : (ofCosts contested).map (fun a => (a.columns, a.value)) = .ok ([0, 1], 1) := by
    decide
  have hsecond : ((ofCosts contested).bind fun a => (a.remove 1 1).bind solve).map
      (fun a => (a.columns, a.value)) = .ok ([1, 0], 3) := by decide
  rw [ha] at hfirst
  simp only [ha, Except.bind, hb, hc] at hsecond
  exact ⟨a, b, c, ha, Except.ok.inj hfirst, hoptimal, hb, hc, Except.ok.inj hsecond, hoptimal'⟩

end Fathom.Routing.Assignment
