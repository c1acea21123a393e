import Mathlib.Data.List.Permutation
import Mathlib.Order.Bounds.Basic
import Fathom.Proofs.PlainTable

/-!
# The floor of a lockstep

The label of a bound is decided by comparing the primal with the floor, the running maximum of the
root's cost and of all dual costs read, in any layer of either diagram. Nothing is asked here of the
domain or of its diagrams: the duals may be no lower bounds, and the restriction may be inexact.
What keeps an exact label honest towards the incumbent is that the lockstep stops at the first dual
that does not improve on it, so that whatever has entered the floor does.

Results:
* `Run.isGreatest_floor`: the floor is the largest of the root's cost and of the dual costs met;
* `Run.beats_floor`: it improves on the incumbent if the root does;
* `Bound.exact_improves`: **an exact bound brings a solution that improves on the incumbent**.
-/

namespace Fathom

variable {σ δ : Type}

namespace Lockstep

variable {D : Domain σ δ} {best : Option Int} {root : σ} {s s' : Lockstep σ δ} {m n : Nat} {c : Int}

/-- The costs of the best states of the dual layers at hand, inference first. -/
def dualCosts (D : Domain σ δ) (s : Lockstep σ δ) : List Int :=
  (s.infer.bind fun d => d.layer.best D.dual.cost).toList.map D.dual.cost ++
    (s.relax.bind fun d => d.layer.best D.cost).toList.map D.cost

/-- `c` is a dual cost that was read in one of the first `n` rounds. -/
def Met (D : Domain σ δ) (best : Option Int) (root : σ) (n : Nat) (c : Int) : Prop :=
  ∃ m s, m < n ∧ Run D best root m s ∧ c ∈ s.dualCosts D

/-! ## One round -/

/-- Reading the layers raises the floor to the largest of the costs they show. -/
theorem note_floor : (s.note D).floor = (s.dualCosts D).foldl max s.floor := by
  rw [note, notePrimal_floor, dualCosts, noteRelaxation, noteInference_relax, noteInference]
  cases s.infer.bind fun d => d.layer.best D.dual.cost <;>
    cases s.relax.bind fun d => d.layer.best D.cost <;> rfl

theorem isGreatest_note_floor :
    IsGreatest {c | c = s.floor ∨ c ∈ s.dualCosts D} (s.note D).floor := by
  have hmax : (s.floor :: s.dualCosts D).max? = some (s.note D).floor := by
    rw [List.max?_cons', note_floor]
  obtain ⟨hmem, hle⟩ := List.max?_eq_some_iff.mp hmax
  exact ⟨List.mem_cons.mp hmem, fun c hc => hle c (List.mem_cons.mpr hc)⟩

theorem advances_unique {t t' : Lockstep σ δ} (h : Advances D best s t)
    (h' : Advances D best s t') : t = t' :=
  Except.ok.inj ((advance_eq_ok_iff.mpr h).symm.trans (advance_eq_ok_iff.mpr h'))

/-! ## A run -/

namespace Run

/-- **A lockstep goes one way.** -/
theorem unique (h : Run D best root n s) (h' : Run D best root n s') : s = s' := by
  induction h generalizing s' with
  | start hs =>
    cases h' with
    | start hs' => exact Except.ok.inj (hs.symm.trans hs')
  | step _ _ hadv ih =>
    cases h' with
    | step h' _ hadv' =>
      obtain rfl := ih h'
      exact advances_unique hadv hadv'

/-- One more round meets the dual costs at hand. -/
theorem met_succ_iff (h : Run D best root n s) :
    Met D best root (n + 1) c ↔ Met D best root n c ∨ c ∈ s.dualCosts D := by
  constructor
  · rintro ⟨m, t, hm, ht, hc⟩
    rcases Nat.lt_succ_iff_lt_or_eq.mp hm with hm | rfl
    · exact .inl ⟨m, t, hm, ht, hc⟩
    · exact .inr (h.unique ht ▸ hc)
  · rintro (⟨m, t, hm, ht, hc⟩ | hc)
    · exact ⟨m, t, Nat.lt_succ_of_lt hm, ht, hc⟩
    · exact ⟨n, s, Nat.lt_succ_self n, h, hc⟩

/-- **The floor is the largest of the root's cost and of the dual costs met.** -/
theorem isGreatest_floor (h : Run D best root n s) :
    IsGreatest {c | c = D.cost root ∨ Met D best root n c} s.floor := by
  induction h with
  | start hs =>
    obtain ⟨infer, relax, restrict, -, -, -, rfl⟩ := start_eq_ok_iff.mp hs
    refine ⟨.inl rfl, ?_⟩
    rintro c (rfl | ⟨m, -, hm, -⟩)
    · exact Int.le_refl _
    · exact absurd hm (Nat.not_lt_zero m)
  | @step n s s' hrun _ hadv ih =>
    obtain ⟨hfloor, hle⟩ := ih
    obtain ⟨hnote, hnote_le⟩ := isGreatest_note_floor (D := D) (s := s)
    have hraised : s.floor ≤ (s.note D).floor := hnote_le (.inl rfl)
    rw [hadv.floor]
    refine ⟨?_, ?_⟩
    · obtain hold | hnew := hnote
      · rw [hold]
        exact hfloor.imp_right fun hmet => hrun.met_succ_iff.mpr (.inl hmet)
      · exact .inr (hrun.met_succ_iff.mpr (.inr hnew))
    · rintro c (rfl | hmet)
      · exact Int.le_trans (hle (.inl rfl)) hraised
      · obtain hmet | hnew := hrun.met_succ_iff.mp hmet
        · exact Int.le_trans (hle (.inr hmet)) hraised
        · exact hnote_le (.inr hnew)

/-- **The floor improves on the incumbent** if the root does: each dual that was read let the
lockstep go on. -/
theorem beats_floor (h : Run D best root n s) (hroot : Cost.beats best (D.cost root) = true) :
    Cost.beats best s.floor = true := by
  induction h with
  | start hs =>
    obtain ⟨infer, relax, restrict, -, -, -, rfl⟩ := start_eq_ok_iff.mp hs
    exact hroot
  | step _ hv hadv ih =>
    obtain ⟨-, hinfer, hrelax, -⟩ := verdict_eq_none hv
    rw [hadv.floor]
    exact beats_note_floor ih hinfer hrelax

end Run

/-- An exact label is only given at the end of the restriction, to a solution within the floor. -/
theorem of_verdict_exact {b : Bound σ δ} (hv : s.verdict D best root = some b)
    (hl : b.label = .exact) : D.solved b.primal = true ∧ D.cost b.primal ≤ s.floor := by
  obtain ⟨-, rfl⟩ | ⟨-, -, hfailed, -⟩ := verdict_eq_some hv
  · obtain ⟨-, -, ⟨hsolved, hprimal, hlabel⟩ | ⟨-, -, hlabel⟩ | ⟨-, -, -, hlabel⟩⟩ :=
      conclude_cases D s root
    · rw [hl] at hlabel
      split at hlabel
      · cases hlabel
      · rename_i hfloor
        rw [hprimal]
        exact ⟨hsolved, Int.not_lt.mp hfloor⟩
    · rw [hl] at hlabel
      cases hlabel
    · rw [hl] at hlabel
      cases hlabel
  · rw [hl] at hfailed
    cases hfailed

end Lockstep

/-- **An exact bound improves on the incumbent it was computed against**, whatever the diagrams are
worth: if the root is cheaper than the incumbent and its bound is exact, the primal is a solution
that is cheaper than the incumbent, and costs no more than the largest of the root's cost and the
dual costs met. -/
theorem Bound.exact_improves {D : Domain σ δ} {root : σ} {best : Option Int} {b : Bound σ δ}
    (hroot : Cost.beats best (D.cost root) = true) (hb : (compute D root best).result = .ok b)
    (hl : b.label = .exact) :
    D.solved b.primal = true ∧ b.isBetterThan D best = true ∧
      ∃ n s floor, Lockstep.Run D best root n s ∧ s.verdict D best root = some b ∧
        IsGreatest {c | c = D.cost root ∨ Lockstep.Met D best root n c} floor ∧
        D.cost b.primal ≤ floor := by
  obtain ⟨n, s, hrun, hv⟩ := compute_eq_ok hb
  obtain ⟨hsolved, hle⟩ := Lockstep.of_verdict_exact hv hl
  have hbeats : Cost.beats best (D.cost b.primal) = true :=
    Cost.beats_of_le hle (hrun.beats_floor hroot)
  refine ⟨hsolved, ?_, n, s, s.floor, hrun, hv, hrun.isGreatest_floor, hle⟩
  rw [isBetterThan, hl, hsolved, hbeats]
  rfl

namespace Table

/-- Two solutions, and a state apart that follows itself. -/
def guidedRows : List PlainRow :=
  [(0, false, [1, 2]), (1, false, [3]), (2, false, [4]), (4, true, []), (6, true, []),
    (4, false, [5])]

/-- A restriction that loses one of the solutions, and an inference diagram at the state apart. -/
abbrev guided : Domain Nat Nat :=
  { plain 1 guidedRows with infer := some ⟨some 5, 0, []⟩ }.domain 3

/-- The inference dual alone makes the bound of the root exact, though the restriction is not. -/
theorem guided_improves : Cost.beats (some 5) (guided.cost 0) = true ∧
    ∃ b, (Bound.compute guided 0 (some 5)).result = .ok b ∧ b.label = .exact ∧
      guided.solved b.primal = true ∧ b.isBetterThan guided (some 5) = true ∧
      ∃ n s floor, Lockstep.Run guided (some 5) 0 n s ∧ s.verdict guided (some 5) 0 = some b ∧
        IsGreatest {c | c = guided.cost 0 ∨ Lockstep.Met guided (some 5) 0 n c} floor ∧
        guided.cost b.primal ≤ floor := by
  have hroot : Cost.beats (some 5) (guided.cost 0) = true := by decide
  have hb : (Bound.compute guided 0 (some 5)).result = .ok ⟨0, some 5, none, 3, .exact⟩ := by cbv
  exact ⟨hroot, _, hb, rfl, Bound.exact_improves hroot hb rfl⟩

end Table

end Fathom
