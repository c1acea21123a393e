import Fathom.Traced

/-!
# The laws of traced results

Traced results make up a lawful monad, and `Traced.sequence` is the traversal in it
(`sequence_eq_mapM`), although it takes its lines and its result from two separate walks. How
computations are grouped therefore makes no difference to what is announced and answered
(`sequence_flatten`).
-/

namespace Fathom

namespace Traced

variable {α β γ : Type}

theorem andThen_answer (x : Traced α) : x.andThen answer = x := by
  obtain ⟨lines, e | a⟩ := x
  · rfl
  · exact congrArg (Traced.mk · _) (List.append_nil lines)

theorem andThen_assoc (x : Traced α) (f : α → Traced β) (g : β → Traced γ) :
    (x.andThen f).andThen g = x.andThen fun a => (f a).andThen g := by
  obtain ⟨lines, e | a⟩ := x
  · rfl
  · simp only [andThen]
    cases (f a).result with
    | error e => rfl
    | ok b => simp only [List.append_assoc]

instance : LawfulMonad Traced :=
  LawfulMonad.mk' _ andThen_answer (fun _ _ => rfl) andThen_assoc

@[simp] theorem lines_map (f : α → β) (x : Traced α) : (f <$> x).lines = x.lines := by
  obtain ⟨lines, e | a⟩ := x
  · rfl
  · exact List.append_nil lines

theorem sequence_cons_of_error {x : Traced α} {e : Fault} (h : x.result = .error e)
    (xs : List (Traced α)) : sequence (x :: xs) = ⟨x.lines, .error e⟩ := by
  have hok : ¬x.isOk = true := by
    rw [isOk, h]
    exact Bool.false_ne_true
  have hlines : (sequence (x :: xs)).lines = x.lines := by
    simp only [sequence, List.takeWhile_cons_of_neg hok, List.dropWhile_cons_of_neg hok,
      List.take_succ_cons, List.take_zero, List.nil_append, List.flatMap_cons, List.flatMap_nil,
      List.append_nil]
  have hresult : (sequence (x :: xs)).result = .error e := by
    rw [result_sequence, List.mapM_cons, h]
    rfl
  rw [← hlines, ← hresult]

theorem sequence_cons_of_ok {x : Traced α} {a : α} (h : x.result = .ok a) (xs : List (Traced α)) :
    sequence (x :: xs) =
      ⟨x.lines ++ (sequence xs).lines, (sequence xs).result.map (a :: ·)⟩ := by
  have hok : x.isOk = true := by
    rw [isOk, h]
    rfl
  have hlines : (sequence (x :: xs)).lines = x.lines ++ (sequence xs).lines := by
    simp only [sequence, List.takeWhile_cons_of_pos hok, List.dropWhile_cons_of_pos hok,
      List.cons_append, List.flatMap_cons]
  have hresult : (sequence (x :: xs)).result = (sequence xs).result.map (a :: ·) := by
    rw [result_sequence, result_sequence, List.mapM_cons, h]
    cases xs.mapM result <;> rfl
  rw [← hlines, ← hresult]

/-- **The computations are made one after the other.** -/
theorem sequence_eq_mapM (xs : List (Traced α)) : sequence xs = xs.mapM id := by
  induction xs with
  | nil => rfl
  | cons x xs ih =>
    rw [List.mapM_cons, ← ih]
    change _ = x.andThen _
    cases h : x.result with
    | error e =>
      rw [sequence_cons_of_error h]
      simp only [andThen, h]
    | ok a =>
      rw [sequence_cons_of_ok h]
      simp only [andThen, h]
      generalize sequence xs = rest
      obtain ⟨lines, e | as⟩ := rest
      · rfl
      · exact congrArg (fun more => Traced.mk (x.lines ++ more) _) (List.append_nil lines).symm

/-- **Groups of computations** are made as the computations without the groups. -/
theorem sequence_flatten (groups : List (List (Traced α))) :
    List.flatten <$> sequence (groups.map sequence) = sequence groups.flatten := by
  simp only [sequence_eq_mapM]
  induction groups with
  | nil => rfl
  | cons group groups ih =>
    rw [List.flatten_cons, List.mapM_append, ← ih, List.map_cons, List.mapM_cons, id_eq,
      sequence_eq_mapM]
    simp only [map_eq_pure_bind, bind_assoc, pure_bind, List.flatten_cons]

end Traced

end Fathom
