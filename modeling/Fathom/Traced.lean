import Fathom.Fault

/-!
# Traced results

Exploring states may announce lines of text on the way. A `Traced` value holds the lines in order
beside the answer or the fault that ended it: lines announced before a fault are kept. The answer
never depends on the lines: `result_bind` says that `result` takes `Traced` programs to plain ones.
-/

namespace Fathom

/-- An answer or a fault, with the lines announced on the way. -/
structure Traced (α : Type) where
  lines : List String
  result : Except Fault α

namespace Traced

variable {α β : Type}

/-- The answer `a`, without a word. -/
def answer (a : α) : Traced α := ⟨[], .ok a⟩

/-- The outcome `r`, without a word. -/
def silent (r : Except Fault α) : Traced α := ⟨[], r⟩

/-- The fault `f`, without a word. -/
def fail (f : Fault) : Traced α := ⟨[], .error f⟩

/-- Goes on with `f` from the answer of `x`, if it has one. -/
def andThen (x : Traced α) (f : α → Traced β) : Traced β :=
  match x.result with
  | .error e => ⟨x.lines, .error e⟩
  | .ok a => ⟨x.lines ++ (f a).lines, (f a).result⟩

instance : Monad Traced where
  pure := answer
  bind := andThen

/-- Whether an answer was reached. -/
def isOk (x : Traced α) : Bool := x.result.toBool

/-- The answers of all, in order, or the first fault; the lines stop with it. -/
def sequence (xs : List (Traced α)) : Traced (List α) where
  lines := (xs.takeWhile isOk ++ (xs.dropWhile isOk).take 1).flatMap lines
  result := xs.mapM result

@[simp] theorem result_pure (a : α) : (pure a : Traced α).result = .ok a := rfl

@[simp] theorem result_bind (x : Traced α) (f : α → Traced β) :
    (x >>= f).result = x.result >>= fun a => (f a).result := by
  change (andThen x f).result = _
  unfold andThen
  split <;> simp_all [bind, Except.bind]

@[simp] theorem result_map (f : α → β) (x : Traced α) :
    (f <$> x).result = f <$> x.result := by
  change (andThen x fun a => answer (f a)).result = _
  unfold andThen answer
  split <;> simp_all [Functor.map, Except.map]

@[simp] theorem result_silent (r : Except Fault α) : (silent r).result = r := rfl

@[simp] theorem result_fail (f : Fault) : (fail f : Traced α).result = .error f := rfl

@[simp] theorem result_sequence (xs : List (Traced α)) :
    (sequence xs).result = xs.mapM result := rfl

end Traced

end Fathom
