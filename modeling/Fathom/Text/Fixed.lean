import Fathom.Text.Padding

/-!
# Fixed-point text of doubles

A finite double is a whole number of units of `2 ^ -1074`, so its decimal text with a fixed number
of places is an exact division, rounded to the nearest and to the even neighbour in a tie
(`roundEven_near`). The sign is kept, also before a zero. `Double.nearest` goes the other way: it
rounds a quotient to 53 significant bits, or to a whole unit where these would be finer.
-/

namespace Fathom.Text

/-- The whole number nearest to the quotient; of two that are equally near, the even one. -/
def roundEven (num den : Nat) : Nat :=
  let q := num / den
  let r := num % den
  if 2 * r < den ∨ (2 * r = den ∧ q % 2 = 0) then q else q + 1

/-- The rounded quotient is within half a unit of the exact one. -/
theorem roundEven_near {num den : Nat} (h : 0 < den) :
    2 * (roundEven num den * den) ≤ 2 * num + den ∧
      2 * num ≤ 2 * (roundEven num den * den) + den := by
  have hdiv := Nat.div_add_mod num den
  have hmod := Nat.mod_lt num h
  rw [Nat.mul_comm] at hdiv
  simp only [roundEven]
  split
  · omega
  · rw [Nat.add_mul]
    omega

/-- A number of double precision. -/
inductive Double
  | nan
  | infinite (negative : Bool)
  /-- A number of units of `2 ^ -1074`. -/
  | finite (negative : Bool) (units : Nat)
  deriving DecidableEq, Repr

namespace Double

/-- The double nearest to a quotient, of either sign; of two that are equally near, the even one. -/
def nearest (negative : Bool) (num den : Nat) : Double :=
  let units := num <<< 1074
  let spare := (units / den).log2 - 52
  let rounded := roundEven units (den <<< spare) <<< spare
  if rounded < 1 <<< (1024 + 1074) then finite negative rounded else infinite negative

/-- The minus sign, if there is one. -/
def sign (negative : Bool) : String := if negative then "-" else ""

/-- The decimal text with a number of places after the point. -/
def fixed (places : Nat) : Double → String
  | nan => "NaN"
  | infinite negative => sign negative ++ "inf"
  | finite negative units =>
    let parts := Nat.pow 10 places
    let scaled := roundEven (units * parts) (1 <<< 1074)
    sign negative ++ toString (scaled / parts) ++ "." ++ zeroPadded places (scaled % parts)

end Double

end Fathom.Text
