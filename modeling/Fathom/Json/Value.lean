import Fathom.Json.Token

/-!
# JSON values

`Value.ofText?` reads a text as one JSON value. The reader is a machine that takes one token at a
time and keeps the open arrays and objects on a stack, so that values may be nested to any depth.
Members keep the order of the text, repeated keys included.
-/

namespace Fathom.Json

/-- A JSON value. Numbers and strings are kept as their tokens have them. -/
inductive Value
  | null
  | bool (value : Bool)
  | number (integer : Option Int)
  | string (text : Option String)
  | array (items : List Value)
  | object (members : List (Option String × Value))
  deriving Inhabited

/-- An array or object that is still open. What it holds is kept newest first. -/
inductive Frame
  | array (items : List Value)
  /-- The members so far, and the key read last. -/
  | object (members : List (Option String × Value)) (key : Option String)

/-- What the text must go on with. -/
inductive Need
  /-- A value. -/
  | value
  /-- A value, or the end of an array that is empty so far. -/
  | firstItem
  /-- A key, or the end of an object that is empty so far. -/
  | firstKey
  /-- A key. -/
  | key
  /-- The colon after a key. -/
  | colon
  /-- A comma, or the end of the innermost array or object. -/
  | separator
  /-- Nothing: the value is complete. -/
  | done (value : Value)

/-- The state of the machine that reads a value. -/
structure Reader where
  /-- The open arrays and objects, innermost first. -/
  frames : List Frame
  need : Need

namespace Reader

/-- Before the first token. -/
def start : Reader := ⟨[], .value⟩

/-- Puts a complete value into the innermost open array or object. -/
def put (v : Value) : List Frame → Reader
  | [] => ⟨[], .done v⟩
  | .array items :: outer => ⟨.array (v :: items) :: outer, .separator⟩
  | .object members key :: outer => ⟨.object ((key, v) :: members) key :: outer, .separator⟩

/-- Begins a value with its first token. -/
def begin (frames : List Frame) : Token → Option Reader
  | .openArray => some ⟨.array [] :: frames, .firstItem⟩
  | .openObject => some ⟨.object [] none :: frames, .firstKey⟩
  | .null => some (put .null frames)
  | .bool b => some (put (.bool b) frames)
  | .number integer => some (put (.number integer) frames)
  | .string text => some (put (.string text) frames)
  | _ => none

/-- Reads a key. -/
def readKey (key : Option String) : List Frame → Option Reader
  | .object members _ :: outer => some ⟨.object members key :: outer, .colon⟩
  | _ => none

/-- Ends the innermost array. -/
def endArray : List Frame → Option Reader
  | .array items :: outer => some (put (.array items.reverse) outer)
  | _ => none

/-- Ends the innermost object. -/
def endObject : List Frame → Option Reader
  | .object members _ :: outer => some (put (.object members.reverse) outer)
  | _ => none

/-- Goes on after a comma. -/
def goOn : List Frame → Option Reader
  | [] => none
  | .array items :: outer => some ⟨.array items :: outer, .value⟩
  | .object members key :: outer => some ⟨.object members key :: outer, .key⟩

/-- Takes one token; none if the text cannot go on with it. -/
def step (r : Reader) (token : Token) : Option Reader :=
  match r.need, token with
  | .value, token => begin r.frames token
  | .firstItem, .closeArray => endArray r.frames
  | .firstItem, token => begin r.frames token
  | .firstKey, .string key => readKey key r.frames
  | .firstKey, .closeObject => endObject r.frames
  | .key, .string key => readKey key r.frames
  | .colon, .colon => some { r with need := .value }
  | .separator, .comma => goOn r.frames
  | .separator, .closeArray => endArray r.frames
  | .separator, .closeObject => endObject r.frames
  | _, _ => none

end Reader

namespace Value

/-- The value that the tokens write. -/
def ofTokens? (tokens : List Token) : Option Value := do
  match (← tokens.foldlM Reader.step Reader.start).need with
  | .done v => some v
  | _ => none

/-- The value that the text writes. -/
def ofText? (text : String) : Option Value := do
  ofTokens? (← Token.ofText? text)

end Value

end Fathom.Json
