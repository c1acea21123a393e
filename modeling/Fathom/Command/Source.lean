/-!
# Sources

The text of an instance comes from a file or from standard input. `Source.ofPath` tells which of the
two a path means: a hyphen is standard input, however many slashes and single dots trail it, while a
path with a part before the hyphen or a true part after it is a file like any other.
-/

namespace Fathom.Command

/-- Where the text of an instance is read. -/
inductive Source
  | standardInput
  | file (path : String)
  deriving DecidableEq, Repr

namespace Source

/-- The parts of a path between its slashes. There is always at least one. -/
def parts : List Char → List (List Char)
  | [] => [[]]
  | c :: rest =>
    if c = '/' then [] :: parts rest
    else
      match parts rest with
      | [] => [[c]]
      | part :: more => (c :: part) :: more

/-- The part stays where it is: it is empty or a single dot. -/
def isIdle (part : List Char) : Bool := part == [] || part == ['.']

/-- The source that a path means. -/
def ofPath (path : String) : Source :=
  match parts path.toList with
  | ['-'] :: more => if more.all isIdle then .standardInput else .file path
  | _ => .file path

end Source

/-- Why the text of an instance could not be had. -/
inductive SourceError
  /-- The system refused, with its own words and number. -/
  | system (reason : String) (code : Nat)
  | notUtf8
  deriving DecidableEq, Repr

/-- The line that tells the error. -/
def SourceError.message : SourceError → String
  | system reason code => s!"io error {reason} (os error {code})"
  | notUtf8 => "io error stream did not contain valid UTF-8"

end Fathom.Command
