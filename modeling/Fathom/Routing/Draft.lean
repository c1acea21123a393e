import Fathom.Cost
import Fathom.Json.Value

/-!
# Instances as they are written

A draft holds the five fields of an instance as the JSON text gives them, before anything is checked
against anything else. The text is an object with these fields, where `nodes` and `edges` must be
given, unknown fields are skipped and a known field may not be repeated; or an array of the five
values in order.
-/

namespace Fathom.Routing

open Fathom.Json

/-- The fields of an instance, not yet validated. -/
structure Draft where
  name : String
  comment : String
  nodes : List String
  /-- The delivery label of each pickup label. -/
  precedence : List (String × String)
  edges : List (List Int)

namespace Draft

/-! ## Typed values -/

/-- A string that has a text. -/
def text? : Value → Option String
  | .string text => text
  | _ => none

/-- An integer of the 64-bit signed range. -/
def cost? : Value → Option Int
  | .number (some c) => if Cost.InRange c then some c else none
  | _ => none

/-- An array whose items can all be read. -/
def list? {α : Type} (read : Value → Option α) : Value → Option (List α)
  | .array items => items.mapM read
  | _ => none

/-- The members of an object, all of whose keys have a text. -/
def members? : Value → Option (List (String × Value))
  | .object members => members.mapM fun (key, v) => key.map fun key => (key, v)
  | _ => none

/-- Sets the value of a key, at its first place. -/
def assign (entries : List (String × String)) (entry : String × String) :
    List (String × String) :=
  if entries.any (·.1 == entry.1) then
    entries.map fun old => if old.1 == entry.1 then entry else old
  else
    entries ++ [entry]

/-- An object from texts to texts; a repeated key keeps its last value. -/
def dictionary? (v : Value) : Option (List (String × String)) := do
  let entries ← (← members? v).mapM fun (key, v) => (text? v).map fun text => (key, text)
  pure (entries.foldl assign [])

/-! ## Fields -/

/-- The value of a field that may be absent but not repeated. -/
def field? (members : List (String × Value)) (key : String) : Option (Option Value) :=
  match members.filter (·.1 == key) with
  | [] => some none
  | [(_, v)] => some (some v)
  | _ => none

/-- Reads a field that must be given. -/
def required {α : Type} (members : List (String × Value)) (key : String)
    (read : Value → Option α) : Option α := do
  read (← ← field? members key)

/-- Reads a field that has a default. -/
def optional {α : Type} (members : List (String × Value)) (key : String) (default : α)
    (read : Value → Option α) : Option α := do
  match ← field? members key with
  | none => some default
  | some v => read v

/-- The draft that a JSON value holds. -/
def ofValue? : Value → Option Draft
  | .array [name, comment, nodes, precedence, edges] => do
    some {
      name := ← text? name
      comment := ← text? comment
      nodes := ← list? text? nodes
      precedence := ← dictionary? precedence
      edges := ← list? (list? cost?) edges }
  | v => do
    let members ← members? v
    some {
      name := ← optional members "name" "" text?
      comment := ← optional members "comment" "" text?
      nodes := ← required members "nodes" (list? text?)
      precedence := ← optional members "precedence" [] dictionary?
      edges := ← required members "edges" (list? (list? cost?)) }

end Draft

end Fathom.Routing
