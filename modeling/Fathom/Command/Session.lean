import Fathom.Command.Options
import Fathom.Routing.Validation
import Fathom.Routing.Visits
import Fathom.Search

/-!
# Sessions

A session reads an instance, searches for its cheapest route and tells what it finds: a header, the
announced states and a row per report. What a session says is a value, the clocks of its rows apart;
`Session.transcript` is all of it for a clock that is known beforehand.
-/

namespace Fathom.Command

open Fathom.Output (Row)
open Fathom.Routing (Instance Assignment Visits Chains)

/-- The line that tells why a text is not an instance. -/
def readErrorLine : Routing.ReadError → String
  | .malformed => "json error"
  | .invalid e => "invalid instance: " ++ e.message

/-- The instance in the bytes of a source, or the line that tells why there is none. -/
def instanceOf (source : Except SourceError ByteArray) : Except String Instance :=
  match source with
  | .error e => .error e.message
  | .ok bytes =>
    match String.fromUTF8? bytes with
    | none => .error SourceError.notUtf8.message
    | some text => (Instance.ofText text).mapError readErrorLine

/-- The status of a session that ended well, could not read its instance, was given options it does
not have, or was stopped by a fault. -/
inductive Status
  | ok
  | unreadable
  | misused
  | faulted
  deriving DecidableEq, Repr

/-- The number that the shell is told. -/
def Status.code : Status → Nat
  | ok => 0
  | unreadable => 1
  | misused => 2
  | faulted => 101

/-- Something a session says. -/
inductive Item
  | line (text : String)
  | row (row : Row)

/-- A formulation of an instance that is ready to be searched. -/
structure Session (σ : Type) where
  domain : Domain σ Assignment
  /-- Where the search begins. -/
  search : Search σ Assignment
  /-- The labels of the route of a state. -/
  path : σ → List String
  /-- The number of rounds that no search needs. -/
  rounds : Nat
  settings : Output.Settings

namespace Session

variable {σ : Type}

/-- The session of an instance as a sequence of visits. -/
def visits (o : Options) (P : Instance) : Except Fault (Session Visits) := do
  let root ← Visits.root P o.infer
  pure {
    domain := Visits.domain P o.width o.relax o.narrates
    search := Search.start root o.config
    path := fun s => P.labelsOf s.route
    rounds := P.rounds
    settings := o.settings P }

/-- The session of an instance as a choice of successors. -/
def chains (o : Options) (P : Instance) : Except Fault (Session Chains) := do
  let root ← Chains.root P o.infer
  let order := Chains.decisionOrder P (o.rule.getD .input)
  pure {
    domain := Chains.domain P order o.width o.narrates
    search := Search.start root o.config
    path := fun s => P.labelsOf (s.route P)
    rounds := P.rounds
    settings := o.settings P }

/-- The row of a report. -/
def row (session : Session σ) (report : Report σ Assignment) : Row where
  settings := session.settings
  primal := report.bound.primalBound session.domain
  optimal := report.optimal
  nodes := report.nodes
  fails := report.fails
  path := session.path report.bound.primal

/-- What is said of an event. -/
def item (session : Session σ) : Event σ Assignment → Item
  | .announced line => .line line
  | .reported report => .row (session.row report)

/-- What is said of all events of a journal, oldest first. -/
def items (session : Session σ) (journal : List (Event σ Assignment)) : List Item :=
  journal.reverse.map session.item

/-- What a whole search says, and the fault that stopped it if there was one. -/
def transcript (session : Session σ) (clock : Nat → Nat → Nat) : List Item × Option Fault :=
  match session.search.run session.domain clock session.rounds with
  | (s, .ok _) => (session.items s.journal, none)
  | (s, .error f) => (session.items s.journal, some f)

end Session

/-- What is said before the search begins. -/
def Options.opening (o : Options) : List Item := (o.format.header.map Item.line).toList

/-- What is said of an instance, and the status at the end. -/
def Options.transcript (o : Options) (P : Instance) (clock : Nat → Nat → Nat) :
    List Item × Status :=
  let (items, fault) :=
    match o.form with
    | .sequential =>
      match Session.visits o P with
      | .error f => ([], some f)
      | .ok session => session.transcript clock
    | .successor =>
      match Session.chains o P with
      | .error f => ([], some f)
      | .ok session => session.transcript clock
  (o.opening ++ items, if fault.isSome then .faulted else .ok)

end Fathom.Command
