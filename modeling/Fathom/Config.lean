/-!
# Tuning a search

How many nodes are bounded per round, and when a search is cut off.
-/

namespace Fathom

/-- The tuning of a search. -/
structure Config where
  /-- The number of nodes that each worker bounds per round. -/
  batchSize : Nat
  /-- The number of workers. -/
  workers : Nat
  /-- The duration after which the search is cut off, in milliseconds; zero means never. -/
  maxMillis : Nat
  /-- The number of bounded nodes, failed ones included, after which the search is cut off; zero
  means never. -/
  maxNodes : Nat
  deriving DecidableEq, Repr

namespace Config

/-- Each worker gets at least one node. -/
def withBatchSize (c : Config) (batchSize : Nat) : Config := { c with batchSize := max 1 batchSize }

/-- There is at least one worker. -/
def withWorkers (c : Config) (workers : Nat) : Config := { c with workers := max 1 workers }

/-- The search is cut off after this many milliseconds. -/
def withMaxMillis (c : Config) (maxMillis : Nat) : Config := { c with maxMillis }

/-- The search is cut off after this many nodes. -/
def withMaxNodes (c : Config) (maxNodes : Nat) : Config := { c with maxNodes }

/-- The most workers that the batches of a round have room for: they stand in one table with three
words of eight bytes for each, and no table takes 2^63 bytes or more. -/
def maxWorkers : Nat := 384307168202282325

/-- The same tuning with at least one worker and one node for each. -/
def normalized (c : Config) : Config := (c.withBatchSize c.batchSize).withWorkers c.workers

end Config

end Fathom
