/-!
# Padding

Cells of a fixed number of characters, and numbers of a fixed number of digits.
-/

namespace Fathom.Text

/-- The text, followed by blanks up to the width; its length counts characters. -/
def padRight (width : Nat) (text : String) : String :=
  text ++ String.ofList (List.replicate (width - text.length) ' ')

/-- The decimal digits of a number, with zeros in front up to the width. -/
def zeroPadded (width n : Nat) : String :=
  let digits := toString n
  String.ofList (List.replicate (width - digits.length) '0') ++ digits

/-- The decimal text of an integer, with zeros after the sign up to the width, sign included. -/
def zeroPaddedInt (width : Nat) (i : Int) : String :=
  if i < 0 then "-" ++ zeroPadded (width - 1) i.natAbs else zeroPadded width i.natAbs

end Fathom.Text
