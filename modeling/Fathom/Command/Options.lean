import Fathom.Command.Source
import Fathom.Config
import Fathom.Output.Row
import Fathom.Routing.Chains

/-!
# Command line options

Every option takes a value. It is given as `--name value` or `--name=value`, or by its letter as
`-l value`, `-lvalue` or `-l=value`, and at most once. A value that stands alone may not begin with
a hyphen unless it is a single one. There are no other arguments; a lone `--` may end the list.
-/

namespace Fathom.Command

open Fathom.Routing (DecisionRule)

/-- How the routing problem is formulated. -/
inductive Form
  /-- As a sequence of visits. -/
  | sequential
  /-- As a choice of successors. -/
  | successor
  deriving DecidableEq, Repr

/-- The options of a run. -/
structure Options where
  /-- Where the instance is read. -/
  input : Source
  form : Form
  /-- How the decision order is chosen; the successor form needs it. -/
  rule : Option DecisionRule
  /-- Bound nodes by the assignment relaxation. -/
  infer : Bool
  /-- Bound nodes by a diagram of folded routes. -/
  relax : Bool
  width : Nat
  batch : Nat
  workers : Nat
  maxMillis : Nat
  maxNodes : Nat
  /-- Whether csv is asked for, and whether with a header. -/
  csv : Option Bool
  verbosity : Nat

/-! ## Cutting the arguments into options and values -/

/-- The names of the options. -/
inductive Name
  | input | form | ordering | infer | relax | width | batch | workers | maxMillis | maxNodes
  | output | verbosity
  deriving DecidableEq, Repr

/-- The option of a long name. -/
def Name.ofLong? : String → Option Name
  | "input" => some input
  | "form" => some form
  | "ordering" => some ordering
  | "infer" => some infer
  | "relax" => some relax
  | "width" => some width
  | "batch" => some batch
  | "workers" => some workers
  | "maxmillis" => some maxMillis
  | "maxnodes" => some maxNodes
  | "output" => some output
  | "verbosity" => some verbosity
  | _ => none

/-- The option of a letter. -/
def Name.ofLetter? : Char → Option Name
  | 'i' => some input
  | 'f' => some form
  | 'w' => some width
  | 'b' => some batch
  | 'o' => some output
  | 'v' => some verbosity
  | _ => none

/-- An option, and its value if the argument holds it. -/
def optionOf? (arg : List Char) : Option (Name × Option String) :=
  match arg with
  | '-' :: '-' :: rest => do
    let name ← Name.ofLong? (String.ofList (rest.takeWhile (· != '=')))
    match rest.dropWhile (· != '=') with
    | [] => some (name, none)
    | _ :: value => some (name, some (String.ofList value))
  | '-' :: letter :: rest => do
    let name ← Name.ofLetter? letter
    match rest with
    | [] => some (name, none)
    | '=' :: value => some (name, some (String.ofList value))
    | value => some (name, some (String.ofList value))
  | _ => none

/-- The argument may stand alone as the value of the option before it. -/
def mayStandAlone (arg : String) : Bool := arg == "-" || arg.toList.head? != some '-'

/-- The options with their values, in the order they are given. -/
def optionsOf? : List String → Option (List (Name × String))
  | [] => some []
  | ["--"] => some []
  | arg :: more =>
    match optionOf? arg.toList, more with
    | none, _ => none
    | some (name, some value), more => do
      some ((name, value) :: (← optionsOf? more))
    | some (_, none), [] => none
    | some (name, none), value :: more =>
      if mayStandAlone value then do
        some ((name, value) :: (← optionsOf? more))
      else none

/-! ## Values -/

/-- A decimal number below `limit`, perhaps after a plus sign. -/
def nat? (limit : Nat) (text : String) : Option Nat :=
  let digits :=
    match text.toList with
    | '+' :: rest => rest
    | all => all
  if digits.isEmpty || !digits.all Char.isDigit then none
  else
    let n := digits.foldl (fun n c => 10 * n + (c.toNat - '0'.toNat)) 0
    if n < limit then some n else none

/-- A number of 64 bits. -/
def word? : String → Option Nat := nat? 18446744073709551616

/-- A number of 64 bits other than zero. -/
def positive? (text : String) : Option Nat := (word? text).filter (0 < ·)

/-- A level of verbosity. Zero may have a sign of either kind. -/
def level? (text : String) : Option Nat :=
  match text.toList with
  | '-' :: digits => if digits.head? = some '+' then none else nat? 1 (String.ofList digits)
  | _ => nat? 3 text

/-- The formulation of a name. -/
def form? : String → Option Form
  | "sequential" => some .sequential
  | "successor" => some .successor
  | _ => none

/-- The decision rule of a name. -/
def rule? : String → Option DecisionRule
  | "greedy" => some .greedy
  | "input" => some .input
  | "regret" => some .regret
  | _ => none

/-- Whether to infer bounds by assignment. -/
def infer? : String → Option Bool
  | "none" => some false
  | "ap" => some true
  | _ => none

/-- Whether to relax by folding. -/
def relax? : String → Option Bool
  | "none" => some false
  | "dd" => some true
  | _ => none

/-- Whether csv gets a header. -/
def csv? : String → Option Bool
  | "csv" => some false
  | "csv-header" => some true
  | _ => none

/-! ## Options -/

/-- The value of an option that is given at most once. -/
def value? {α : Type} (given : List (Name × String)) (name : Name) (read : String → Option α) :
    Option (Option α) :=
  match given.filter (·.1 == name) with
  | [] => some none
  | [(_, text)] => (read text).map some
  | _ => none

namespace Options

/-- The options that the arguments give. -/
def ofArgs? (args : List String) : Option Options := do
  let given ← optionsOf? args
  let input ← value? given .input (some ∘ Source.ofPath)
  let form ← ← value? given .form form?
  let rule ← value? given .ordering rule?
  let infer ← value? given .infer infer?
  let relax ← value? given .relax relax?
  let width ← value? given .width word?
  let batch ← value? given .batch positive?
  let workers ← value? given .workers positive?
  let maxMillis ← value? given .maxMillis word?
  let maxNodes ← value? given .maxNodes word?
  let csv ← value? given .output csv?
  let verbosity ← value? given .verbosity level?
  if form = .successor ∧ rule = none then none
  some {
    input := input.getD .standardInput
    form, rule
    infer := infer.getD false
    relax := relax.getD false
    width := width.getD 0
    batch := batch.getD 1
    workers := workers.getD 1
    maxMillis := maxMillis.getD 0
    maxNodes := maxNodes.getD 0
    csv
    verbosity := verbosity.getD 0 }

/-- How rows are written: as a table at verbosity one, else as csv if that is asked for. -/
def format (o : Options) : Output.Format :=
  if o.verbosity = 1 then .table
  else
    match o.csv with
    | some header => .csv header
    | none => .quiet

/-- Every state that is expanded is announced. -/
def narrates (o : Options) : Bool := o.verbosity == 2

/-- The tuning of the search. -/
def config (o : Options) : Config := ⟨o.batch, o.workers, o.maxMillis, o.maxNodes⟩

/-- The settings that the rows repeat. -/
def settings (o : Options) (P : Routing.Instance) : Output.Settings where
  name := P.name
  size := P.size
  form :=
    match o.form with
    | .sequential => "sequential"
    | .successor => "successor"
  infer := if o.infer then "ap" else "none"
  relax := if o.relax then "dd" else "none"
  ordering :=
    match o.rule with
    | none => "none"
    | some .greedy => "greedy"
    | some .input => "input"
    | some .regret => "regret"
  width := o.width
  batch := o.batch
  workers := o.workers
  maxMillis := o.maxMillis
  maxNodes := o.maxNodes

end Options

end Fathom.Command
