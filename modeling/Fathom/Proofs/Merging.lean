import Fathom.Merger
import Mathlib.Order.Monotone.Basic

/-!
# Cycles of mergers

Nothing is asked of mergers here: they may grow a collection, empty it, or put it in another order.
`Merger.met` lists the collections that are met when mergers are applied in cyclic order. A
reduction goes down this list: it stops at the first collection that fits (`FirstFit`), or after a
full cycle that has not removed a state (`Stalls`). Each cycle that it goes on from has removed one,
so there are no more cycles than states to be removed.

Results:
* `cycle_cases`: one cycle;
* `reduce_cases`: the cycle that a reduction ends in;
* `not_stalls`: mergers that do not grow a collection, one of which removes a state, do not stall;
* `length_le_of_shrink`: what a layer is left with fits;
* `shrink_ends`: what a layer is left with, and when it fails.
-/

namespace Fathom

namespace Merger

variable {σ : Type} {mergers : List (Merger σ)} {width depth c k : Nat} {states : List σ}

/-- The collection that is met after so many mergers, applied in cyclic order. -/
def met (mergers : List (Merger σ)) (width : Nat) (states : List σ) : Nat → List σ
  | 0 => states
  | k + 1 =>
    match mergers[k % mergers.length]? with
    | none => met mergers width states k
    | some merge => merge (met mergers width states k) width

/-- The collection met after `k` mergers is the first that fits. -/
structure FirstFit (mergers : List (Merger σ)) (width : Nat) (states : List σ) (k : Nat) :
    Prop where
  fits : (met mergers width states k).length ≤ width
  above : ∀ i < k, width < (met mergers width states i).length

/-- Cycle `c` is gone through, no collection that fits being met on the way, and ends with at least
as many states as it began with. -/
structure Stalls (mergers : List (Merger σ)) (width : Nat) (states : List σ) (c : Nat) : Prop where
  above : ∀ i ≤ (c + 1) * mergers.length, width < (met mergers width states i).length
  length_le : (met mergers width states (c * mergers.length)).length ≤
    (met mergers width states ((c + 1) * mergers.length)).length

/-! ## One cycle -/

theorem met_succ {merge : Merger σ} (h : mergers[k % mergers.length]? = some merge) :
    met mergers width states (k + 1) = merge (met mergers width states k) width := by
  rw [met, h]

/-- After a full cycle the mergers start again. -/
theorem met_length_add (i : Nat) : met mergers width states (mergers.length + i) =
    met mergers width (met mergers width states mergers.length) i := by
  induction i with
  | zero => rfl
  | succ i ih => rw [← Nat.add_assoc, met, met, Nat.add_mod_left, ih]

/-- The rest of a cycle meets the first collection that fits, or goes on to its end. -/
theorem cycle_drop {more : List (Merger σ)} (hmore : mergers.drop k = more)
    (hk : k ≤ mergers.length) (habove : ∀ i ≤ k, width < (met mergers width states i).length) :
    (∃ j, k < j ∧ j ≤ mergers.length ∧ FirstFit mergers width states j ∧
      cycle width more (met mergers width states k) = met mergers width states j) ∨
    ((∀ i ≤ mergers.length, width < (met mergers width states i).length) ∧
      cycle width more (met mergers width states k) = met mergers width states mergers.length) := by
  induction more generalizing k with
  | nil =>
    obtain rfl : k = mergers.length := Nat.le_antisymm hk (List.drop_eq_nil_iff.mp hmore)
    exact .inr ⟨habove, rfl⟩
  | cons merge more ih =>
    have hlt : k < mergers.length := by
      refine Nat.lt_of_not_le fun hle => ?_
      rw [List.drop_eq_nil_of_le hle] at hmore
      cases hmore
    rw [List.drop_eq_getElem_cons hlt] at hmore
    obtain ⟨hmerge, hmore⟩ := List.cons.inj hmore
    have hmet : met mergers width states (k + 1) = merge (met mergers width states k) width := by
      refine met_succ ?_
      rw [Nat.mod_eq_of_lt hlt, List.getElem?_eq_getElem hlt, hmerge]
    rw [cycle, ← hmet]
    split
    · rename_i hfits
      exact .inl ⟨k + 1, Nat.lt_succ_self k, hlt,
        ⟨hfits, fun i hi => habove i (Nat.le_of_lt_succ hi)⟩, rfl⟩
    · rename_i hfits
      have habove' : ∀ i ≤ k + 1, width < (met mergers width states i).length := by
        intro i hi
        rcases Nat.lt_or_eq_of_le hi with hi | rfl
        · exact habove i (Nat.le_of_lt_succ hi)
        · exact Nat.lt_of_not_le hfits
      obtain ⟨j, hkj, hj, hfirst, hcycle⟩ | hend := ih hmore hlt habove'
      · exact .inl ⟨j, Nat.lt_of_succ_lt hkj, hj, hfirst, hcycle⟩
      · exact .inr hend

/-- **A cycle** meets the first collection that fits, or ends above the width. -/
theorem cycle_cases (mergers : List (Merger σ)) (hwidth : width < states.length) :
    (∃ k, 0 < k ∧ k ≤ mergers.length ∧ FirstFit mergers width states k ∧
      cycle width mergers states = met mergers width states k) ∨
    ((∀ i ≤ mergers.length, width < (met mergers width states i).length) ∧
      cycle width mergers states = met mergers width states mergers.length) := by
  refine cycle_drop (k := 0) rfl (Nat.zero_le _) fun i hi => ?_
  rw [Nat.le_zero.mp hi]
  exact hwidth

/-! ## Later cycles -/

private theorem succ_mul_eq_add (n m : Nat) : (n + 1) * m = m + n * m := by
  rw [Nat.succ_mul, Nat.add_comm]

section

variable (habove : ∀ i ≤ mergers.length, width < (met mergers width states i).length)

include habove

/-- What is met in the first cycle does not fit, so the first fit of what it leaves is the first. -/
theorem FirstFit.later (h : FirstFit mergers width (met mergers width states mergers.length) k) :
    FirstFit mergers width states (mergers.length + k) := by
  refine ⟨?_, fun i hi => ?_⟩
  · rw [met_length_add]
    exact h.fits
  · rcases Nat.le_total i mergers.length with hle | hle
    · exact habove i hle
    · obtain ⟨j, rfl⟩ := Nat.le.dest hle
      rw [met_length_add]
      exact h.above j (Nat.lt_of_add_lt_add_left hi)

theorem stalls_succ_iff : Stalls mergers width states (c + 1) ↔
    Stalls mergers width (met mergers width states mergers.length) c := by
  constructor
  · intro h
    refine ⟨fun i hi => ?_, ?_⟩
    · rw [← met_length_add]
      exact h.above _ (succ_mul_eq_add (c + 1) _ ▸ Nat.add_le_add_left hi _)
    · have hle := h.length_le
      rwa [succ_mul_eq_add c, succ_mul_eq_add (c + 1), met_length_add, met_length_add] at hle
  · intro h
    refine ⟨fun i hi => ?_, ?_⟩
    · rcases Nat.le_total i mergers.length with hle | hle
      · exact habove i hle
      · obtain ⟨j, rfl⟩ := Nat.le.dest hle
        rw [met_length_add]
        rw [succ_mul_eq_add (c + 1)] at hi
        exact h.above j (Nat.le_of_add_le_add_left hi)
    · rw [succ_mul_eq_add c, succ_mul_eq_add (c + 1), met_length_add, met_length_add]
      exact h.length_le

theorem stalls_zero_iff : Stalls mergers width states 0 ↔
    states.length ≤ (met mergers width states mergers.length).length := by
  have hend : (0 + 1) * mergers.length = mergers.length := by rw [Nat.zero_add, Nat.one_mul]
  constructor
  · intro h
    have hle := h.length_le
    rwa [hend, Nat.zero_mul] at hle
  · intro h
    refine ⟨fun i hi => habove i (hend ▸ hi), ?_⟩
    rwa [hend, Nat.zero_mul]

end

/-! ## Reductions -/

/-- How a reduction ends in cycle `c`, the cycles being counted from 0: with the first collection
that fits, or at a cycle that stalls. -/
inductive EndsIn (mergers : List (Merger σ)) (width : Nat) (states : List σ) (c : Nat) :
    Except Fault (List σ) → Prop
  | fits {k : Nat} (after : c * mergers.length < k) (within : k ≤ (c + 1) * mergers.length)
      (first : FirstFit mergers width states k) :
      EndsIn mergers width states c (.ok (met mergers width states k))
  | stalls (h : Stalls mergers width states c) : EndsIn mergers width states c
      (.error (.stuckMergers (met mergers width states (c * mergers.length)).length width))

theorem EndsIn.later {result : Except Fault (List σ)}
    (habove : ∀ i ≤ mergers.length, width < (met mergers width states i).length)
    (h : EndsIn mergers width (met mergers width states mergers.length) c result) :
    EndsIn mergers width states (c + 1) result := by
  cases h with
  | fits hlt hle hfirst =>
    rw [← met_length_add]
    refine .fits ?_ ?_ (hfirst.later habove)
    · rw [succ_mul_eq_add]
      exact Nat.add_lt_add_left hlt _
    · rw [succ_mul_eq_add (c + 1)]
      exact Nat.add_le_add_left hle _
  | stalls hstalls =>
    rw [← met_length_add, ← succ_mul_eq_add]
    exact .stalls ((stalls_succ_iff habove).mpr hstalls)

/-- A cycle whose outcome fits has met it first. -/
theorem endsIn_of_fits (hwidth : width < states.length)
    (hfits : (cycle width mergers states).length ≤ width) :
    EndsIn mergers width states 0 (.ok (cycle width mergers states)) := by
  obtain ⟨k, hpos, hk, hfirst, hcycle⟩ | ⟨habove, hcycle⟩ := cycle_cases mergers hwidth
  · rw [hcycle]
    exact .fits (by simpa using hpos) (by simpa using hk) hfirst
  · rw [hcycle] at hfits
    exact absurd hfits (Nat.not_le.mpr (habove _ (Nat.le_refl _)))

/-- A cycle whose outcome does not fit has met none that does. -/
theorem cycle_of_not_fits (hwidth : width < states.length)
    (hfits : ¬(cycle width mergers states).length ≤ width) :
    (∀ i ≤ mergers.length, width < (met mergers width states i).length) ∧
      cycle width mergers states = met mergers width states mergers.length := by
  obtain ⟨k, -, -, hfirst, hcycle⟩ | hend := cycle_cases mergers hwidth
  · rw [hcycle] at hfits
    exact absurd hfirst.fits hfits
  · exact hend

/-- **A reduction** ends in its first cycle that meets a collection that fits or that stalls. Each
cycle before has removed a state. -/
theorem reduce_cases (mergers : List (Merger σ)) (hwidth : width < states.length) :
    ∃ c < states.length - width, (∀ c' < c, ¬ Stalls mergers width states c') ∧
      EndsIn mergers width states c (reduce mergers width states) := by
  fun_induction reduce mergers width states with
  | case1 states hfits =>
    exact ⟨0, Nat.sub_pos_of_lt hwidth, fun c' hc' => absurd hc' (Nat.not_lt_zero c'),
      endsIn_of_fits hwidth hfits⟩
  | case2 states hfits hless ih =>
    obtain ⟨habove, hcycle⟩ := cycle_of_not_fits hwidth hfits
    obtain ⟨c, hc, hbefore, hends⟩ := ih (Nat.lt_of_not_le hfits)
    rw [hcycle] at hc hbefore hends hless ⊢
    refine ⟨c + 1, by omega, fun c' hc' hstalls => ?_, hends.later habove⟩
    cases c' with
    | zero => exact absurd hless (Nat.not_lt.mpr ((stalls_zero_iff habove).mp hstalls))
    | succ c' =>
      exact hbefore c' (Nat.lt_of_succ_lt_succ hc') ((stalls_succ_iff habove).mp hstalls)
  | case3 states hfits hless =>
    obtain ⟨habove, hcycle⟩ := cycle_of_not_fits hwidth hfits
    rw [hcycle] at hless
    have hends := EndsIn.stalls ((stalls_zero_iff habove).mpr (Nat.le_of_not_lt hless))
    rw [Nat.zero_mul, met] at hends
    exact ⟨0, Nat.sub_pos_of_lt hwidth, fun c' hc' => absurd hc' (Nat.not_lt_zero c'), hends⟩

/-- A reduction fails where a cycle stalls. -/
theorem EndsIn.error_iff {result : Except Fault (List σ)} (h : EndsIn mergers width states c result)
    (hbefore : ∀ c' < c, ¬ Stalls mergers width states c') :
    (∃ f, result = .error f) ↔ ∃ c', Stalls mergers width states c' := by
  cases h with
  | @fits k hlt hle hfirst =>
    refine ⟨fun ⟨f, hf⟩ => (nomatch hf), fun ⟨c', hstalls⟩ => ?_⟩
    refine absurd hstalls (hbefore c' (Nat.lt_of_not_le fun hc => ?_))
    have hk : k ≤ (c' + 1) * mergers.length :=
      Nat.le_trans hle (Nat.mul_le_mul_right _ (Nat.succ_le_succ hc))
    exact absurd hfirst.fits (Nat.not_le.mpr (hstalls.above k hk))
  | stalls hstalls => exact ⟨fun _ => ⟨c, hstalls⟩, fun _ => ⟨_, rfl⟩⟩

/-! ## Mergers that do not stall -/

section

variable (hshrinks : ∀ merge ∈ mergers, ∀ l, (merge l width).length ≤ l.length)

include hshrinks

theorem length_met_antitone (states : List σ) :
    Antitone fun k => (met mergers width states k).length := by
  refine antitone_nat_of_succ_le fun k => ?_
  cases h : mergers[k % mergers.length]? with
  | none => rw [met, h]
  | some merge =>
    rw [met_succ h]
    exact hshrinks merge (List.mem_of_getElem? h) _

/-- **Mergers that never grow a collection do not stall** if one of them removes a state from each
collection that does not fit. -/
theorem not_stalls {merge : Merger σ} (hmem : merge ∈ mergers)
    (hstrict : ∀ l, width < l.length → (merge l width).length < l.length) :
    ¬ Stalls mergers width states c := by
  intro hstalls
  obtain ⟨i, hi, hmerge⟩ := List.getElem_of_mem hmem
  -- the merger's turn in cycle `c`
  have hturn : c * mergers.length + i < (c + 1) * mergers.length := by
    rw [Nat.succ_mul]
    exact Nat.add_lt_add_left hi _
  have hget : mergers[(c * mergers.length + i) % mergers.length]? = some merge := by
    rw [Nat.mul_comm, Nat.mul_add_mod, Nat.mod_eq_of_lt hi, List.getElem?_eq_getElem hi, hmerge]
  have hremoves := hstrict _ (hstalls.above _ (Nat.le_of_lt hturn))
  rw [← met_succ hget] at hremoves
  have hbefore := length_met_antitone hshrinks states (Nat.le_add_right (c * mergers.length) i)
  have hafter := length_met_antitone hshrinks states hturn
  exact absurd (Nat.lt_of_le_of_lt hafter (Nat.lt_of_lt_of_le hremoves hbefore))
    (Nat.not_lt.mpr hstalls.length_le)

end

/-! ## Whole layers -/

theorem shrink_of_fits (h : width = 0 ∨ states.length ≤ width) :
    shrink mergers width depth states = .ok states := by
  rw [shrink, if_pos h]

theorem shrink_nil (h : width ≠ 0) (hwidth : width < states.length) :
    shrink [] width depth states = .error (.noMerger depth states.length width) := by
  rw [shrink, if_neg fun hf => hf.elim h (Nat.not_le.mpr hwidth)]
  rfl

theorem shrink_eq_reduce (h : width ≠ 0) (hwidth : width < states.length) (hne : mergers ≠ []) :
    shrink mergers width depth states = reduce mergers width states := by
  rw [shrink, if_neg fun hf => hf.elim h (Nat.not_le.mpr hwidth),
    if_neg (by simpa using hne)]

/-- What a layer with a width is left with fits. -/
theorem length_le_of_shrink {kept : List σ} (h : width ≠ 0)
    (hk : shrink mergers width depth states = .ok kept) : kept.length ≤ width := by
  rcases Nat.lt_or_ge width states.length with hwidth | hwidth
  · by_cases hne : mergers = []
    · rw [hne, shrink_nil h hwidth] at hk
      cases hk
    · rw [shrink_eq_reduce h hwidth hne] at hk
      obtain ⟨c, -, -, hends⟩ := reduce_cases mergers hwidth
      rw [hk] at hends
      obtain ⟨-, -, hfirst⟩ := hends
      exact hfirst.fits
  · rw [shrink_of_fits (.inr hwidth)] at hk
    cases hk
    exact hwidth

/-- No state is lost where none has to be. -/
theorem length_eq_of_shrink_iff {kept : List σ}
    (hk : shrink mergers width depth states = .ok kept) :
    kept.length = states.length ↔ width = 0 ∨ states.length ≤ width := by
  constructor
  · intro hlen
    by_cases h : width = 0
    · exact .inl h
    · exact .inr (hlen ▸ length_le_of_shrink h hk)
  · intro hfits
    rw [shrink_of_fits hfits, Except.ok.injEq] at hk
    rw [hk]

/-- **Reducing a layer to its width.** A layer without a width, or that fits, is left as it is. Else
the mergers are applied in cyclic order: the result is the first collection met that fits, or a
fault if there is no merger or some full cycle ends above the width without having removed a state;
the number of cycles is at most that of the states in excess. Mergers that do not grow a collection,
one of which removes a state from each that does not fit, never fail. -/
theorem shrink_ends (mergers : List (Merger σ)) (width depth : Nat) (states : List σ) :
    (width = 0 ∨ states.length ≤ width → shrink mergers width depth states = .ok states) ∧
    (width ≠ 0 → width < states.length →
      ((mergers = [] ∧ shrink mergers width depth states =
          .error (.noMerger depth states.length width)) ∨
        (mergers ≠ [] ∧ ∃ c < states.length - width,
          (∀ c' < c, ¬ Stalls mergers width states c') ∧
          EndsIn mergers width states c (shrink mergers width depth states))) ∧
      ((∃ f, shrink mergers width depth states = .error f) ↔
        mergers = [] ∨ ∃ c, Stalls mergers width states c)) ∧
    ((∀ merge ∈ mergers, ∀ l, (merge l width).length ≤ l.length) →
      (∃ merge ∈ mergers, ∀ l, width < l.length → (merge l width).length < l.length) →
      ∃ kept, shrink mergers width depth states = .ok kept) := by
  refine ⟨shrink_of_fits, fun h hwidth => ?_, fun hshrinks ⟨merge, hmem, hstrict⟩ => ?_⟩
  · by_cases hne : mergers = []
    · subst hne
      rw [shrink_nil h hwidth]
      exact ⟨.inl ⟨rfl, rfl⟩, fun _ => .inl rfl, fun _ => ⟨_, rfl⟩⟩
    · obtain ⟨c, hc, hbefore, hends⟩ := reduce_cases mergers hwidth
      rw [shrink_eq_reduce h hwidth hne]
      refine ⟨.inr ⟨hne, c, hc, hbefore, hends⟩, (hends.error_iff hbefore).trans ?_⟩
      rw [or_iff_right hne]
  · by_cases hfits : width = 0 ∨ states.length ≤ width
    · exact ⟨states, shrink_of_fits hfits⟩
    · obtain ⟨h, hwidth⟩ := not_or.mp hfits
      have hwidth := Nat.lt_of_not_le hwidth
      rw [shrink_eq_reduce h hwidth (List.ne_nil_of_mem hmem)]
      obtain ⟨c, -, -, hends⟩ := reduce_cases mergers hwidth
      generalize reduce mergers width states = result at hends
      cases hends with
      | fits => exact ⟨_, rfl⟩
      | stalls hstalls => exact absurd hstalls (not_stalls hshrinks hmem hstrict)

/-- Reversing three states changes nothing by itself; with a merger that drops the last state, two
cycles reduce four states to two. -/
theorem shrink_ends_reverse_dropLast :
    let mergers : List (Merger Nat) :=
      [fun states _ => states.reverse, fun states _ => states.dropLast]
    (∃ kept, shrink mergers 2 1 [7, 5, 3, 1] = .ok kept) ∧
    (∃ c < 2, (∀ c' < c, ¬ Stalls mergers 2 [7, 5, 3, 1] c') ∧
      EndsIn mergers 2 [7, 5, 3, 1] c (shrink mergers 2 1 [7, 5, 3, 1])) ∧
    shrink mergers 4 1 [7, 5, 3, 1] = .ok [7, 5, 3, 1] := by
  intro mergers
  have hends := shrink_ends mergers 2 1 [7, 5, 3, 1]
  have hcycle := (hends.2.1 (by decide) (by decide)).1.resolve_left
    fun h => List.cons_ne_nil _ _ h.1
  refine ⟨hends.2.2 ?_ ⟨_, List.mem_cons_of_mem _ List.mem_cons_self, ?_⟩, hcycle.2,
    (shrink_ends mergers 4 1 [7, 5, 3, 1]).1 (.inr (by decide))⟩
  · simp [mergers]
  · intro l hl
    rw [List.length_dropLast]
    omega

end Merger

end Fathom
