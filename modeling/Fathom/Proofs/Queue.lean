import Fathom.Queue

/-!
# Queues without empty batches

A queue that was made by `ofRoot` and changed by `extend` and `pop` only stores no empty batch, and
its count is the number of its nodes (`Queue.Full`). Then a node comes out as long as there is one
(`pop_eq_none_iff`), and the count tells that the queue is empty exactly when `toList` is
(`isEmpty_iff`).
-/

namespace Fathom

namespace Queue

variable {σ : Type} {q rest : Queue σ} {node : Node σ} {nodes : List (Node σ)}
  {best : Option Int}

/-- No batch is empty, and the count is that of the nodes. -/
structure Full (q : Queue σ) : Prop where
  nil_notMem : [] ∉ q.batches
  count_eq : q.count = q.size

theorem full_ofRoot (state : σ) : (ofRoot state).Full :=
  ⟨by simp [ofRoot], rfl⟩

theorem Full.extend (h : q.Full) (nodes : List (Node σ)) (best : Option Int) :
    (q.extend nodes best).Full := by
  unfold Queue.extend
  split
  · exact h
  · rename_i hne
    refine ⟨fun hm => ?_, ?_⟩
    · rcases List.mem_cons.mp hm with hm | hm
      · exact hne hm.symm
      · exact h.nil_notMem hm
    · have hcount := h.count_eq
      simp only [size, toList, List.flatten_cons, List.length_append] at hcount ⊢
      omega

theorem Full.pop (h : q.Full) (hpop : q.pop = some (node, rest)) : rest.Full := by
  have hlength := congrArg List.length (toList_of_pop hpop)
  rw [List.length_cons] at hlength
  have hcount : q.count - 1 = rest.size := by
    rw [h.count_eq, size, hlength, Nat.add_sub_cancel]
    rfl
  obtain ⟨batches, count⟩ := q
  unfold Queue.pop at hpop
  split at hpop
  · cases hpop
  · cases hpop
  · rename_i hb
    cases hpop
    simp only at hb
    exact ⟨fun hm => h.nil_notMem (hb ▸ List.mem_cons_of_mem _ hm), hcount⟩
  · rename_i next more older hb
    cases hpop
    simp only at hb
    refine ⟨fun hm => ?_, hcount⟩
    rcases List.mem_cons.mp hm with hm | hm
    · cases hm
    · exact h.nil_notMem (hb ▸ List.mem_cons_of_mem _ hm)

/-- **A node comes out as long as there is one.** -/
theorem pop_eq_none_iff (h : q.Full) : q.pop = none ↔ q.toList = [] := by
  obtain ⟨batches, count⟩ := q
  cases batches with
  | nil => simp [Queue.pop, toList]
  | cons batch older =>
    cases batch with
    | nil => exact absurd List.mem_cons_self h.nil_notMem
    | cons first more =>
      cases more <;> simp [Queue.pop, toList]

theorem isEmpty_iff (h : q.Full) : q.isEmpty = true ↔ q.toList = [] := by
  rw [isEmpty, beq_iff_eq, h.count_eq, size, List.length_eq_zero_iff]

/-- Nothing comes out of an empty queue. -/
theorem pop_of_isEmpty (h : q.Full) (hempty : q.isEmpty = true) : q.pop = none :=
  (pop_eq_none_iff h).mpr ((isEmpty_iff h).mp hempty)

/-- An extension adds the promising nodes. -/
theorem mem_sorted : node ∈ sorted nodes best ↔ node ∈ nodes ∧ node.promising best = true := by
  rw [sorted, List.mem_mergeSort, List.mem_filter]

end Queue

end Fathom
