/-!
# Csv records

A field that holds a comma, a quote or a line break is written between quotes, with the quotes
inside it doubled; every other field is written as it is.
-/

namespace Fathom.Output.Csv

/-- The character makes a field need quotes. -/
def isSpecial (c : Char) : Bool := c == ',' || c == '"' || c == '\n' || c == '\r'

/-- The characters with every quote doubled. -/
def doubled : List Char → List Char
  | [] => []
  | c :: rest => if c = '"' then c :: c :: doubled rest else c :: doubled rest

/-- The written form of the characters of a field. -/
def fieldChars (text : List Char) : List Char :=
  if text.any isSpecial then '"' :: (doubled text ++ ['"']) else text

/-- The written form of a field. -/
def field (text : String) : String := String.ofList (fieldChars text.toList)

/-- The record of fields that are written already. -/
def record (fields : List String) : String := ",".intercalate fields

end Fathom.Output.Csv
