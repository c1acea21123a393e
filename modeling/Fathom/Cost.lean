import Fathom.Fault

/-!
# Checked cost arithmetic

Costs are integers of the 64-bit signed range. Every sum and difference is computed exactly and then
checked: the result is the exact one or an overflow (`add_eq_ok_iff`, `sub_eq_ok_iff`).
-/

namespace Fathom

namespace Cost

/-- The least cost. -/
def least : Int := -9223372036854775808

/-- The greatest cost; it also stands for "no arc". -/
def greatest : Int := 9223372036854775807

/-- The cost lies in the 64-bit signed range. -/
def InRange (c : Int) : Prop := least ≤ c ∧ c ≤ greatest

instance (c : Int) : Decidable (InRange c) :=
  inferInstanceAs (Decidable (least ≤ c ∧ c ≤ greatest))

/-- A cost that lies in range, or an overflow. -/
def checked (c : Int) : Except Fault Int :=
  if InRange c then .ok c else .error .overflow

/-- The checked sum. -/
def add (a b : Int) : Except Fault Int := checked (a + b)

/-- The checked difference. -/
def sub (a b : Int) : Except Fault Int := checked (a - b)

/-- The difference, or the end of the range on the side where it lies outside. -/
def saturatingSub (a b : Int) : Int := max least (min greatest (a - b))

/-- The cost is less than the best one known, if any. -/
def beats (best : Option Int) (c : Int) : Bool := best.all fun b => decide (c < b)

theorem checked_eq_ok_iff {a c : Int} : checked a = .ok c ↔ InRange a ∧ a = c := by
  unfold checked
  split <;> simp_all

theorem add_eq_ok_iff {a b c : Int} : add a b = .ok c ↔ InRange (a + b) ∧ a + b = c :=
  checked_eq_ok_iff

theorem sub_eq_ok_iff {a b c : Int} : sub a b = .ok c ↔ InRange (a - b) ∧ a - b = c :=
  checked_eq_ok_iff

@[simp] theorem beats_none (c : Int) : beats none c = true := rfl

@[simp] theorem beats_some (b c : Int) : beats (some b) c = decide (c < b) := rfl

theorem beats_of_le {best : Option Int} {a c : Int} (hle : a ≤ c) (h : beats best c = true) :
    beats best a = true := by
  cases best with
  | none => rfl
  | some b =>
    rw [beats_some, decide_eq_true_eq] at h ⊢
    exact Int.lt_of_le_of_lt hle h

theorem beats_max {best : Option Int} {a b : Int} (ha : beats best a = true)
    (hb : beats best b = true) : beats best (max a b) = true := by
  obtain h | h := Int.le_total a b
  · rwa [Int.max_eq_right h]
  · rwa [Int.max_eq_left h]

end Cost

end Fathom
