import Fathom.Proofs.Routing.Tableau
import Mathlib.Data.Fintype.Card

/-!
# Partial matchings with duals

Between two placements the tableau holds a matching of the rows placed so far (`Matching`): its arcs
have reduced cost zero, no reduced cost of a placed row is negative, and columns that are still free
have dual zero. As long as a column is free, this keeps all duals within twice the largest cost,
which is what rules overflows out (`Matching.rowDual_bounds`, `Matching.dual_bounds`).
-/

namespace Fathom.Routing.Assignment

/-- No cost of the square matrix exceeds `most` in absolute value, and sums of as many as there are
rows lie in range. -/
structure Within (costs : Array (Array Int)) (most : Int) : Prop where
  cell : ∀ {i j}, i < costs.size → j < costs.size → cell costs i j = .ok (cost costs i j)
  le : ∀ {i j}, i < costs.size → j < costs.size → cost costs i j ≤ most
  ge : ∀ {i j}, i < costs.size → j < costs.size → -most ≤ cost costs i j
  nonneg : 0 ≤ most
  room : 4 * (costs.size + 1) * most ≤ Cost.greatest

namespace Within

variable {costs : Array (Array Int)} {most c : Int}

/-- As many costs as there are rows, and one more, lie in range four times over. -/
theorem total_le (h : Within costs most) {k : Nat} (hk : k ≤ costs.size + 1) :
    4 * (k * most) ≤ Cost.greatest := by
  have hle : (k : Int) * most ≤ (costs.size + 1) * most :=
    Int.mul_le_mul_of_nonneg_right (by omega) h.nonneg
  have hroom := h.room
  rw [Int.mul_assoc] at hroom
  omega

theorem inRange_of_le (hlow : -Cost.greatest ≤ c) (hhigh : c ≤ Cost.greatest) : Cost.InRange c := by
  unfold Cost.InRange Cost.least
  unfold Cost.greatest at hlow hhigh ⊢
  omega

/-- Costs that are small enough lie in range. -/
theorem inRange (h : Within costs most) (hlow : -(4 * most) ≤ c) (hhigh : c ≤ 4 * most) :
    Cost.InRange c := by
  have := h.total_le (k := 1) (Nat.succ_le_succ (Nat.zero_le _))
  exact inRange_of_le (by omega) (by omega)

/-- Totals of up to as many costs as there are rows lie in range. -/
theorem inRange_total (h : Within costs most) {k : Nat} (hk : k ≤ costs.size)
    (hlow : -(k * most) ≤ c) (hhigh : c ≤ k * most) : Cost.InRange c := by
  have hle := h.total_le (Nat.le_succ_of_le hk)
  have hnonneg : 0 ≤ (k : Int) * most := Int.mul_nonneg (Int.natCast_nonneg k) h.nonneg
  exact inRange_of_le (by omega) (by omega)

end Within

namespace Tableau

/-- The dual of a row. -/
def rowDual (t : Tableau) (r : Nat) : Int := t.rowDuals.getD r 0

/-- The column of a number. -/
def column (t : Tableau) (j : Nat) : Column := nth t.columns j

/-- The cost of the arc from the row `r` into the column `j`, less the duals of both. -/
def reduced (costs : Array (Array Int)) (t : Tableau) (r j : Nat) : Int :=
  cost costs r (j - 1) - t.rowDual r - (t.column j).dual

/-- The rows below `i` are matched with columns, by arcs of reduced cost zero. -/
structure Matching (costs : Array (Array Int)) (i : Nat) (t : Tableau) : Prop where
  rowDuals : t.rowDuals.length = costs.size
  columns : t.columns.length = costs.size + 1
  row_lt : ∀ {j r}, 0 < j → (t.column j).row = some r → r < i
  injective : ∀ {j j' r}, 0 < j → 0 < j' → (t.column j).row = some r →
    (t.column j').row = some r → j = j'
  onto : ∀ {r}, r < i → ∃ j, 0 < j ∧ (t.column j).row = some r
  tight : ∀ {j r}, 0 < j → (t.column j).row = some r → reduced costs t r j = 0
  feasible : ∀ {r j}, r < i → 0 < j → j ≤ costs.size → 0 ≤ reduced costs t r j
  dual_nonpos : ∀ {j}, 0 < j → (t.column j).dual ≤ 0
  free : ∀ {j}, 0 < j → (t.column j).row = none → (t.column j).dual = 0

namespace Matching

variable {costs : Array (Array Int)} {most : Int} {i j r : Nat} {t t' : Tableau}

theorem le_size (h : Matching costs i t) (hj : (t.column j).row = some r) : j ≤ costs.size := by
  have := lt_of_row hj
  rw [h.columns] at this
  omega

/-- A matching only depends on the duals and on the rows of the columns. -/
theorem congr (h : Matching costs i t) (hrows : t'.rowDuals = t.rowDuals)
    (hlength : t'.columns.length = t.columns.length)
    (hrow : ∀ j, 0 < j → (t'.column j).row = (t.column j).row)
    (hdual : ∀ j, 0 < j → (t'.column j).dual = (t.column j).dual) : Matching costs i t' := by
  have hreduced : ∀ {r j}, 0 < j → reduced costs t' r j = reduced costs t r j := by
    intro r j hj
    rw [reduced, reduced, rowDual, hrows, hdual j hj, rowDual]
  refine ⟨hrows ▸ h.rowDuals, hlength ▸ h.columns, fun hj hr => ?_, fun hj hj' hr hr' => ?_,
    fun hr => ?_, fun hj hr => ?_, fun hr hj hle => ?_, fun hj => ?_, fun hj hr => ?_⟩
  · exact h.row_lt hj (hrow _ hj ▸ hr)
  · exact h.injective hj hj' (hrow _ hj ▸ hr) (hrow _ hj' ▸ hr')
  · obtain ⟨j, hj, hr⟩ := h.onto hr
    exact ⟨j, hj, (hrow j hj).trans hr⟩
  · rw [hreduced hj]
    exact h.tight hj (hrow _ hj ▸ hr)
  · rw [hreduced hj]
    exact h.feasible hr hj hle
  · rw [hdual _ hj]
    exact h.dual_nonpos hj
  · rw [hdual _ hj]
    exact h.free hj (hrow _ hj ▸ hr)

/-- **As long as a row is not placed, a column is free.** -/
theorem exists_free (h : Matching costs i t) (hi : i < costs.size) :
    ∃ f, 0 < f ∧ f ≤ costs.size ∧ (t.column f).row = none := by
  by_contra hnone
  have hmatched : ∀ j : Fin costs.size, ∃ r : Fin i, (t.column (j + 1)).row = some r.1 := by
    intro j
    cases hr : (t.column (j + 1)).row with
    | none => exact absurd ⟨j + 1, Nat.succ_pos _, j.2, hr⟩ hnone
    | some r => exact ⟨⟨r, h.row_lt (Nat.succ_pos _) hr⟩, rfl⟩
  choose f hf using hmatched
  have hinj : Function.Injective f := by
    intro a b hab
    have := h.injective (Nat.succ_pos _) (Nat.succ_pos _) (hf a) (hab ▸ hf b)
    exact Fin.ext (Nat.succ.inj this)
  have := Fintype.card_le_of_injective f hinj
  simp only [Fintype.card_fin] at this
  omega

/-- The duals of placed rows are costs, up to sign, as long as a column is free. -/
theorem rowDual_bounds (h : Matching costs i t) (hw : Within costs most) (hi : i < costs.size)
    (hr : r < i) : -most ≤ t.rowDual r ∧ t.rowDual r ≤ most := by
  obtain ⟨f, hf, hle, hfree⟩ := h.exists_free hi
  obtain ⟨j, hj, hrow⟩ := h.onto hr
  have hjle := h.le_size hrow
  have htight := h.tight hj hrow
  have hfeasible := h.feasible hr hf hle
  have hdual := h.dual_nonpos hj
  have hge := hw.ge (i := r) (j := j - 1) (by omega) (by omega)
  have hle' := hw.le (i := r) (j := f - 1) (by omega) (by omega)
  rw [reduced] at htight hfeasible
  rw [h.free hf hfree] at hfeasible
  constructor <;> omega

/-- The duals of columns lie between zero and minus twice the largest cost. -/
theorem dual_bounds (h : Matching costs i t) (hw : Within costs most) (hi : i < costs.size)
    (hj : 0 < j) : -(2 * most) ≤ (t.column j).dual ∧ (t.column j).dual ≤ 0 := by
  refine ⟨?_, h.dual_nonpos hj⟩
  have hmost := hw.nonneg
  cases hrow : (t.column j).row with
  | none =>
    rw [h.free hj hrow]
    omega
  | some r =>
    have hr := h.row_lt hj hrow
    have hjle := h.le_size hrow
    have htight := h.tight hj hrow
    have hbound := (h.rowDual_bounds hw hi hr).2
    have hge := hw.ge (i := r) (j := j - 1) (by omega) (by omega)
    rw [reduced] at htight
    omega

end Matching

end Tableau

end Fathom.Routing.Assignment
