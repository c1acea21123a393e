import Fathom.Command.Session

/-!
# The command line

Reads the arguments and the instance, runs the search against the clocks of the system and prints
what it says as it says it. What is said and when a search ends is decided elsewhere.
-/

namespace Fathom.Command

open Fathom.Output (Format)
open Fathom.Routing (Assignment Instance)

/-- All bytes of a stream. -/
partial def readAll (stream : IO.FS.Stream) (read : ByteArray) : IO ByteArray := do
  let chunk ← stream.read 65536
  if chunk.isEmpty then pure read else readAll stream (read ++ chunk)

/-- The bytes of the file at a path. -/
def readFile (path : String) : IO ByteArray := do
  readAll (IO.FS.Stream.ofHandle (← IO.FS.Handle.mk path .read)) ByteArray.empty

/-! ## Clocks -/

/-- The nanoseconds of processor time in the line that the system keeps of a process. Behind the
name of the process, which stands in brackets, the twelfth field tells the time in user mode and the
thirteenth that in system mode, in hundredths of a second. -/
def processorNanos? (line : String) : Option Nat := do
  let fields := ((line.splitOn ")").getLastD "").splitOn " "
  let user ← (← fields[12]?).toNat?
  let system ← (← fields[13]?).toNat?
  some ((user + system) * 10000000)

/-- The nanoseconds of processor time of this process, zero if they cannot be read. -/
def processorNanosNow : IO Nat := do
  try
    let line := String.fromUTF8? (← readFile "/proc/self/stat")
    pure ((line.bind processorNanos?).getD 0)
  catch _ =>
    pure 0

/-- When a search began, by the clock on the wall and by the processor time, in nanoseconds. -/
structure Clock where
  wall : Nat
  processor : Nat

namespace Clock

def start : IO Clock := do
  pure ⟨← IO.monoNanosNow, ← processorNanosNow⟩

/-- The nanoseconds since the clock was started. -/
def wallNanos (clock : Clock) : IO Nat := do
  pure ((← IO.monoNanosNow) - clock.wall)

/-- The nanoseconds of processor time since the clock was started. -/
def processorNanos (clock : Clock) : IO Nat := do
  pure ((← processorNanosNow) - clock.processor)

end Clock

/-- Nanoseconds in seconds. -/
def seconds (nanos : Nat) : Text.Double := Text.Double.nearest false nanos 1000000000

/-! ## Searches -/

/-- Prints what has been said, with the clocks on each row. -/
def printItems (format : Format) (clock : Clock) (items : List Item) : IO Unit := do
  for item in items do
    match item with
    | .line text => IO.println text
    | .row row =>
      match row.line format (seconds (← clock.wallNanos)) (seconds (← clock.processorNanos)) with
      | some text => IO.println text
      | none => pure ()

/-- Prints what the journal of a search holds, and empties it. -/
def flush {σ : Type} (session : Session σ) (format : Format) (clock : Clock)
    (s : Search σ Assignment) : IO (Search σ Assignment) := do
  printItems format clock (session.items s.journal)
  pure { s with journal := [] }

/-- Runs rounds until the search ends; the clock is read once the nodes of a round are bounded. -/
partial def runRounds {σ : Type} (session : Session σ) (format : Format) (clock : Clock)
    (s : Search σ Assignment) : IO Status := do
  if s.queue.isEmpty then
    let _ ← flush session format clock s.conclude
    return .ok
  let (s, bounds) := s.bound session.domain
  let s ← flush session format clock s
  match bounds with
  | .error _ => return .faulted
  | .ok bounds =>
    let millis := (← clock.wallNanos) / 1000000
    let (s, stopped) := s.settle session.domain (fun _ => millis) bounds
    let s ← flush session format clock s
    match stopped with
    | .error _ => return .faulted
    | .ok true => return .ok
    | .ok false => runRounds session format clock s

/-- Runs the search of a session that could be prepared. -/
def runSession {σ : Type} (session : Except Fault (Session σ)) (format : Format) : IO Status := do
  match session with
  | .error _ => pure .faulted
  | .ok session =>
    if session.search.hasRoom then runRounds session format (← Clock.start) session.search
    else pure .faulted

/-- Runs the search for an instance. -/
def runInstance (o : Options) (P : Instance) : IO Status := do
  printItems o.format (← Clock.start) o.opening
  match o.form with
  | .sequential => runSession (Session.visits o P) o.format
  | .successor => runSession (Session.chains o P) o.format

/-! ## Sources -/

/-- The error of the system, in its own words. -/
def sourceError : IO.Error → SourceError
  | .alreadyExists _ code reason | .otherError code reason | .resourceBusy code reason
  | .resourceVanished code reason | .unsupportedOperation code reason
  | .hardwareFault code reason | .unsatisfiedConstraints code reason
  | .illegalOperation code reason | .protocolError code reason | .timeExpired code reason
  | .interrupted _ code reason | .noFileOrDirectory _ code reason
  | .invalidArgument _ code reason | .permissionDenied _ code reason
  | .resourceExhausted _ code reason | .inappropriateType _ code reason
  | .noSuchThing _ code reason => .system reason code.toNat
  | .unexpectedEof => .system "unexpected end of file" 5
  | .userError reason => .system reason 5

/-- The bytes of a source. -/
def readSource (source : Source) : IO (Except SourceError ByteArray) := do
  try
    match source with
    | .standardInput => pure (.ok (← readAll (← IO.getStdin) ByteArray.empty))
    | .file path => pure (.ok (← readFile path))
  catch e =>
    pure (.error (sourceError e))

end Fathom.Command

open Fathom.Command in
/-- The command line program. -/
def main (args : List String) : IO UInt32 := do
  match Options.ofArgs? args with
  | none =>
    IO.eprintln "invalid arguments"
    pure Status.misused.code.toUInt32
  | some o =>
    match instanceOf (← readSource o.input) with
    | .error line =>
      IO.eprintln line
      pure Status.unreadable.code.toUInt32
    | .ok P => pure (← runInstance o P).code.toUInt32
