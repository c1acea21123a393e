import Fathom.Proofs.Layered
import Fathom.Table

/-!
# Plain tables

A plain table is given by the cost of each state, whether it is solved, and its successors: its
states take no hints, and its only diagrams are restrictions to the cheapest states. A surveyed
table has inference and relaxation diagrams beside them, which keep all states. Whether such tables
keep the contract of a layered domain can be computed state by state (`Table.IsLayered`).

Results: `Table.layered`, `Table.admissible`, and the same for surveyed tables.
-/

namespace Fathom

/-- A state that takes no hints and has the diagrams of its table. -/
def TableState.plain (cost : Int) (solved : Bool) (next : List Nat) : TableState where
  cost
  solved
  next
  block := []
  infer := .inherited
  relax := .inherited
  restrict := .inherited

namespace Table

/-- The cost of a state, whether it is solved, and its successors. -/
abbrev PlainRow := Int × Bool × List Nat

/-- The table of these states, whose restrictions keep the `width` cheapest ones. -/
def plain (width : Nat) (rows : List PlainRow) : Table where
  states := (rows.map fun row => TableState.plain row.1 row.2.1 row.2.2).toArray
  prune := false
  infer := none
  relax := none
  restrict := some ⟨none, width, [.maxCost]⟩

variable {width height depth root id : Nat} {rows : List PlainRow} {row : PlainRow}

theorem states_plain (h : rows[id]? = some row) :
    (plain width rows).states[id]? = some (TableState.plain row.1 row.2.1 row.2.2) := by
  simp [plain, h]

theorem state_plain (h : rows[id]? = some row) :
    (plain width rows).state id = .ok (TableState.plain row.1 row.2.1 row.2.2) := by
  rw [state, states_plain h]

@[simp] theorem cost_plain (h : rows[id]? = some row) : (plain width rows).cost id = row.1 := by
  rw [cost, states_plain h]
  rfl

@[simp] theorem solved_plain (h : rows[id]? = some row) :
    (plain width rows).solved id = row.2.1 := by
  rw [solved, states_plain h]
  rfl

/-- Every successor is reached, whatever the hints. -/
theorem reaches_plain (dual : Option Nat) (best : Option Int) :
    (plain width rows).reaches dual best = fun _ => true := by
  funext id
  cases dual with
  | none => rfl
  | some d =>
    cases h : rows[id]? with
    | none => simp [reaches, plain, h]
    | some row => simp [reaches, plain, h, TableState.plain]

theorem expand_plain (dual : Option Nat) (best : Option Int) (h : rows[id]? = some row) :
    (plain width rows).expand id dual best = .ok row.2.2 := by
  rw [expand, state_plain h, reaches_plain]
  exact congrArg Except.ok (List.filter_eq_self.mpr fun _ _ => rfl)

theorem expand_hintless (dual : Option Nat) (best : Option Int) :
    (plain width rows).expand id dual best = (plain width rows).expand id none none := by
  rw [expand, expand, reaches_plain, reaches_plain]

theorem diagram_plain (h : rows[id]? = some row) :
    ((plain width rows).domain height).infer id = .ok none ∧
      ((plain width rows).domain height).relax id = .ok none ∧
      ((plain width rows).domain height).restrict id = .ok (some (Diagram.root id
        [Merger.cheapest ((plain width rows).domain height).cost] width)) := by
  refine ⟨?_, ?_, ?_⟩ <;>
  · change diagram _ _ _ id = _
    rw [diagram, state_plain h]
    rfl

/-- State `id` lies on the level `level id` of a layered table, as do its successors on theirs. -/
def IsLayeredAt (rows : List PlainRow) (level : Nat → Nat) (depth id : Nat) : Bool :=
  rows[id]?.all fun row =>
    (row.2.1 == (level id == depth)) && (!row.2.1 || row.2.2.isEmpty) &&
      row.2.2.all fun next =>
        rows[next]?.any (fun row' => decide (row.1 ≤ row'.1)) && level next == level id + 1

/-- The states of the table lie on levels, and those on the level `depth` are the solutions. -/
def IsLayered (rows : List PlainRow) (level : Nat → Nat) (depth : Nat) : Bool :=
  (List.range rows.length).all (IsLayeredAt rows level depth)

variable {level : Nat → Nat}

theorem isLayeredAt (h : IsLayered rows level depth = true) (hrow : rows[id]? = some row) :
    (row.2.1 = true ↔ level id = depth) ∧ (row.2.1 = true → row.2.2 = []) ∧
      ∀ next ∈ row.2.2, level next = level id + 1 ∧
        ∃ row', rows[next]? = some row' ∧ row.1 ≤ row'.1 := by
  have hid : id < rows.length := (List.getElem?_eq_some_iff.mp hrow).1
  have hat := List.all_eq_true.mp h id (List.mem_range.mpr hid)
  rw [IsLayeredAt, hrow] at hat
  simp only [Option.all_some, Bool.and_eq_true, beq_iff_eq, Bool.or_eq_true, Bool.not_eq_true',
    List.isEmpty_iff, List.all_eq_true, Option.any_eq_true, decide_eq_true_eq] at hat
  obtain ⟨⟨hsolved, hends⟩, hnext⟩ := hat
  refine ⟨?_, fun hs => ?_, fun next hmem => ?_⟩
  · rw [hsolved, beq_iff_eq]
  · rcases hends with hends | hends
    · rw [hs] at hends
      cases hends
    · exact hends
  · obtain ⟨⟨row', hrow', hcost⟩, hl⟩ := hnext next hmem
    exact ⟨hl, row', hrow', hcost⟩

theorem steps_plain (h : IsLayered rows level depth = true) (hroot : root < rows.length)
    (hlevel : level root = 0) {n s : Nat}
    (hs : Steps ((plain width rows).domain height).Precedes n root s) :
    level s = n ∧ ∃ row, rows[s]? = some row := by
  refine Steps.invariant (P := fun n s => level s = n ∧ ∃ row, rows[s]? = some row)
    ⟨hlevel, _, List.getElem?_eq_getElem hroot⟩ (fun n s u hs hu => ?_) hs
  obtain ⟨rfl, row, hrow⟩ := hs
  obtain ⟨next, he, hu⟩ := hu
  rw [show ((plain width rows).domain height).expand s none none = _ from expand_plain _ _ hrow,
    Except.ok.injEq] at he
  obtain ⟨hlevel, row', hrow', -⟩ := (isLayeredAt h hrow).2.2 u (he ▸ hu)
  exact ⟨hlevel, row', hrow'⟩

/-- What `Layered.of_plain` asks of the tree. -/
theorem tree_plain (h : IsLayered rows level depth = true) (hroot : root < rows.length)
    (hlevel : level root = 0) {n s : Nat}
    (hs : Steps ((plain width rows).domain height).Precedes n root s) :
    let D := (plain width rows).domain height
    (D.solved s = true ↔ n = depth) ∧
      (∃ next, D.expand s none none = .ok next ∧ (∀ t ∈ next, D.cost s ≤ D.cost t) ∧
        (D.solved s = true → next = [])) ∧
      ∃ width, D.restrict s = .ok (some (Diagram.root s [Merger.cheapest D.cost] width)) := by
  obtain ⟨rfl, row, hrow⟩ := steps_plain h hroot hlevel hs
  obtain ⟨hsolved, hends, hnext⟩ := isLayeredAt h hrow
  refine ⟨?_, ⟨row.2.2, expand_plain none none hrow, fun u hu => ?_, fun hs => ?_⟩,
    width, (diagram_plain hrow).2.2⟩
  · rw [show ((plain width rows).domain height).solved s = _ from solved_plain hrow]
    exact hsolved
  · obtain ⟨-, row', hrow', hcost⟩ := hnext u hu
    rw [show ((plain width rows).domain height).cost s = _ from cost_plain hrow,
      show ((plain width rows).domain height).cost u = _ from cost_plain hrow']
    exact hcost
  · rw [show ((plain width rows).domain height).solved s = _ from solved_plain hrow] at hs
    exact hends hs

/-- **A plain table whose levels check is layered.** -/
theorem layered (h : IsLayered rows level depth = true) (hroot : root < rows.length)
    (hlevel : level root = 0) (hheight : depth < height) :
    Layered ((plain width rows).domain height) root depth :=
  .of_plain (fun _ dual best => expand_hintless dual best)
    (fun _ _ hs => tree_plain h hroot hlevel hs) hheight

/-- A plain table has no other diagrams than restrictions. -/
theorem admissible (h : IsLayered rows level depth = true) (hroot : root < rows.length)
    (hlevel : level root = 0) :
    Admissible ((plain width rows).domain height) (Reached ((plain width rows).domain height) root)
      depth ((plain width rows).domain height).Offers := by
  have hrow : ∀ {n s}, Reached ((plain width rows).domain height) root n s →
      ∃ row, rows[s]? = some row := fun hs =>
    (steps_plain h hroot hlevel (hs.steps fun _ dual best => expand_hintless dual best)).2
  refine admissible_of_bare (fun hs => ?_) fun hs => ?_
  · obtain ⟨row, hrow⟩ := hrow hs
    exact (diagram_plain hrow).1
  · obtain ⟨row, hrow⟩ := hrow hs
    exact (diagram_plain hrow).2.1

/-! ## Surveyed tables -/

/-- The table of these states whose inference and relaxation diagrams keep all states below the one
that asks for them. -/
def surveyed (width : Nat) (rows : List PlainRow) : Table :=
  { plain width rows with infer := some ⟨none, 0, []⟩, relax := some ⟨none, 0, []⟩ }

theorem surveys_surveyed (h : rows[id]? = some row) :
    ((surveyed width rows).domain height).Surveys id := by
  have hstate : (surveyed width rows).state id =
      .ok (TableState.plain row.1 row.2.1 row.2.2) :=
    show (plain width rows).state id = _ from state_plain h
  refine ⟨[], [], ?_, ?_⟩ <;>
  · change diagram _ _ _ id = _
    rw [diagram, hstate]
    rfl

theorem expand_surveyed (dual : Option Nat) (best : Option Int) :
    (surveyed width rows).expand id dual best = (surveyed width rows).expand id none none :=
  show (plain width rows).expand id dual best = (plain width rows).expand id none none from
    expand_hintless dual best

/-- Its states follow each other as in the plain table. -/
theorem steps_surveyed {n s : Nat}
    (hs : Steps ((surveyed width rows).domain height).Precedes n root s) :
    Steps ((plain width rows).domain height).Precedes n root s := hs

/-- **A surveyed table whose levels check is layered.** -/
theorem layered_surveyed (h : IsLayered rows level depth = true) (hroot : root < rows.length)
    (hlevel : level root = 0) (hheight : depth < height) :
    Layered ((surveyed width rows).domain height) root depth := by
  refine .of_plain (fun _ dual best => expand_surveyed dual best) (fun n s hs => ?_) hheight
  exact tree_plain h hroot hlevel (steps_surveyed hs)

/-- **Its diagrams are admissible.** -/
theorem admissible_surveyed (h : IsLayered rows level depth = true) (hroot : root < rows.length)
    (hlevel : level root = 0) (hheight : depth < height) :
    Admissible ((surveyed width rows).domain height)
      (Reached ((surveyed width rows).domain height) root) depth
      ((surveyed width rows).domain height).Offers := by
  have hlayered : Layered ((surveyed width rows).domain height) root depth :=
    layered_surveyed h hroot hlevel hheight
  refine hlayered.admissible_of_surveys (fun _ dual best => expand_surveyed dual best) rfl
    fun hs => ?_
  obtain ⟨-, row, hrow⟩ := steps_plain h hroot hlevel
    (steps_surveyed (hs.steps fun _ dual best => expand_surveyed dual best))
  exact surveys_surveyed hrow

end Table

end Fathom
