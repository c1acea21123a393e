import Fathom.Proofs.Layers
import Fathom.Proofs.Lockstep
import Fathom.Proofs.Merging
import Fathom.Proofs.PlainTable

/-!
# Exact layers

A layer is flagged exact by comparing how many states there were before each reduction and after it.
`Space.levels` expands a root level by level and merges nothing. `Diagram.Advanced S d hints counts
e` says that `d` becomes `e` by one advance for each of the hints, and how many successors each of
the advances produced before it reduced them. The mergers are arbitrary, and so are the hints.

Results:
* `advance_exact_iff`: what one advance does to the flag;
* `Advanced.exact_of_exact`: an exact layer comes after exact layers only;
* `Advanced.levels`: as long as layers are exact, they are what expanding gives;
* `exact_iff_full`: when a layer is exact, and what it holds.
-/

namespace Fathom

variable {σ δ : Type}

namespace Space

/-- The states reached from the root by expanding a whole level for each of the hints, in order. -/
def levels (S : Space σ δ) (root : σ) (hints : List (Option δ × Option Int)) :
    Except Fault (List σ) :=
  hints.foldlM (fun level hint =>
    List.flatten <$> level.mapM fun state => S.expand state hint.1 hint.2) [root]

variable {S : Space σ δ} {root : σ} {hints : List (Option δ × Option Int)} {level next : List σ}
  {dual : Option δ} {best : Option Int}

theorem levels_concat (h : S.levels root hints = .ok level)
    (hnext : (S.branchAll level dual best).result = .ok next) :
    S.levels root (hints ++ [(dual, best)]) = .ok next := by
  unfold levels at h ⊢
  rw [result_branchAll] at hnext
  rw [List.foldlM_append]
  refine bind_eq_ok_iff.mpr ⟨level, h, ?_⟩
  rw [List.foldlM_cons, hnext]
  rfl

/-- What is found on a level lies as many steps below the root as there were hints. -/
theorem steps_of_levels (h : S.levels root hints = .ok level) {t : σ} (ht : t ∈ level) :
    Steps S.Leads hints.length root t := by
  suffices hfrom : ∀ (hints : List (Option δ × Option Int)) (n : Nat) (first : List σ),
      (∀ u ∈ first, Steps S.Leads n root u) →
      hints.foldlM (fun level hint =>
        List.flatten <$> level.mapM fun state => S.expand state hint.1 hint.2) first = .ok level →
      Steps S.Leads (n + hints.length) root t by
    rw [← Nat.zero_add hints.length]
    refine hfrom hints 0 [root] (fun u hu => ?_) h
    rw [List.mem_singleton.mp hu]
    exact .refl root
  clear h
  intro hints
  induction hints with
  | nil =>
    intro n first hfirst h
    cases h
    exact hfirst t ht
  | cons hint hints ih =>
    intro n first hfirst h
    rw [List.foldlM_cons] at h
    obtain ⟨next, hnext, h⟩ := bind_eq_ok_iff.mp h
    rw [← result_branchAll] at hnext
    rw [List.length_cons, Nat.add_comm hints.length, ← Nat.add_assoc]
    refine ih (n + 1) next (fun u hu => ?_) h
    obtain ⟨v, hv, successors, he, hu⟩ := (mem_of_branchAll hnext u).mp hu
    exact (hfirst v hv).tail ⟨hint.1, hint.2, successors, he, hu⟩

end Space

namespace Diagram

variable {S : Space σ δ} {d e next : Diagram σ} {dual : Option δ} {best : Option Int}
  {reached : List σ} {hints more : List (Option δ × Option Int)} {counts : List Nat}

/-- One advance for each of the hints, and the number of successors each of them produced. -/
inductive Advanced (S : Space σ δ) (d : Diagram σ) :
    List (Option δ × Option Int) → List Nat → Diagram σ → Prop
  | start : Advanced S d [] [] d
  | advance {hints : List (Option δ × Option Int)} {counts : List Nat} {e next : Diagram σ}
      {dual : Option δ} {best : Option Int} {reached : List σ} :
      Advanced S d hints counts e → (S.branchAll e.layer.states dual best).result = .ok reached →
      (e.advance S dual best).result = .ok next →
      Advanced S d (hints ++ [(dual, best)]) (counts ++ [reached.length]) next

/-! ## One advance -/

theorem advance_kept (hreached : (S.branchAll d.layer.states dual best).result = .ok reached)
    (h : (d.advance S dual best).result = .ok next) : ∃ kept,
      Merger.shrink d.mergers d.width (d.layer.depth + 1) reached = .ok kept ∧
      next = { d with layer :=
        ⟨d.layer.depth + 1, kept, d.layer.isExact && kept.length == reached.length⟩ } := by
  obtain ⟨reached', kept, hreached', hk, hnext⟩ := advance_eq_ok_iff.mp h
  rw [hreached, Except.ok.injEq] at hreached'
  subst hreached'
  exact ⟨kept, hk, hnext⟩

/-- **One advance** keeps a layer exact iff its successors fit; it then keeps all of them. -/
theorem advance_exact_iff (hreached : (S.branchAll d.layer.states dual best).result = .ok reached)
    (h : (d.advance S dual best).result = .ok next) :
    (next.layer.isExact = true ↔
      d.layer.isExact = true ∧ (d.width = 0 ∨ reached.length ≤ d.width)) ∧
    (next.layer.isExact = true → next.layer.states = reached) := by
  obtain ⟨kept, hk, rfl⟩ := advance_kept hreached h
  have hflag : (d.layer.isExact && kept.length == reached.length) = true ↔
      d.layer.isExact = true ∧ (d.width = 0 ∨ reached.length ≤ d.width) := by
    rw [Bool.and_eq_true, beq_iff_eq, Merger.length_eq_of_shrink_iff hk]
  refine ⟨hflag, fun hexact => ?_⟩
  have hfits := (hflag.mp hexact).2
  rw [Merger.shrink_of_fits hfits, Except.ok.injEq] at hk
  exact hk.symm

/-! ## Any number of advances -/

namespace Advanced

theorem tail (h : Advanced S d hints counts e) (hnext : (e.advance S dual best).result = .ok next) :
    ∃ counts', Advanced S d (hints ++ [(dual, best)]) counts' next := by
  obtain ⟨reached, -, hreached, -⟩ := advance_eq_ok_iff.mp hnext
  exact ⟨_, h.advance hreached hnext⟩

theorem width_eq (h : Advanced S d hints counts e) : e.width = d.width := by
  induction h with
  | start => rfl
  | advance _ hreached hnext ih =>
    obtain ⟨kept, -, rfl⟩ := advance_kept hreached hnext
    exact ih

theorem depth_eq (h : Advanced S d hints counts e) :
    e.layer.depth = d.layer.depth + hints.length := by
  induction h with
  | start => rfl
  | advance _ hreached hnext ih =>
    obtain ⟨kept, -, rfl⟩ := advance_kept hreached hnext
    rw [List.length_append, ← Nat.add_assoc, ← ih]
    rfl

theorem length_counts (h : Advanced S d hints counts e) : counts.length = hints.length := by
  induction h with
  | start => rfl
  | advance _ _ _ ih => rw [List.length_append, List.length_append, ih]; rfl

/-- **The flag**: the first layer was exact, and the successors have fitted each time. -/
theorem exact_iff (h : Advanced S d hints counts e) : e.layer.isExact = true ↔
    d.layer.isExact = true ∧ (d.width = 0 ∨ ∀ count ∈ counts, count ≤ d.width) := by
  induction h with
  | start => simp
  | advance hpath hreached hnext ih =>
    rw [(advance_exact_iff hreached hnext).1, ih, hpath.width_eq, and_assoc, ← or_and_left,
      List.forall_mem_append, List.forall_mem_singleton]

/-- **An exact layer comes after exact layers only.** -/
theorem exact_of_exact (h : Advanced S d hints counts e) (he : e.layer.isExact = true) :
    d.layer.isExact = true :=
  (h.exact_iff.mp he).1

theorem length_le (h : Advanced S d hints counts e) (hwidth : d.width ≠ 0)
    (hd : d.layer.states.length ≤ d.width) : e.layer.states.length ≤ d.width := by
  cases h with
  | start => exact hd
  | advance hpath hreached hnext =>
    obtain ⟨kept, hk, rfl⟩ := advance_kept hreached hnext
    rw [← hpath.width_eq] at hwidth ⊢
    exact Merger.length_le_of_shrink hwidth hk

/-- **Exact layers** hold what expanding the root level by level gives. -/
theorem levels {root : σ} (h : Advanced S d hints counts e) (hd : d.layer.states = [root])
    (he : e.layer.isExact = true) : S.levels root hints = .ok e.layer.states := by
  induction h with
  | start => exact congrArg Except.ok hd.symm
  | advance _ hreached hnext ih =>
    obtain ⟨hflag, hstates⟩ := advance_exact_iff hreached hnext
    rw [hstates he]
    exact Space.levels_concat (ih (hflag.mp he).1) hreached

end Advanced

variable {root : σ} {mergers : List (Merger σ)} {width : Nat}

/-- **A diagram without a width** stays exact, and holds what expanding its root gives. -/
theorem Advanced.unbounded (h : Advanced S (Diagram.root root mergers 0) hints counts e) :
    e.Unbounded ∧ e.layer.isExact = true ∧ S.levels root hints = .ok e.layer.states := by
  have hexact : e.layer.isExact = true := h.exact_iff.mpr ⟨rfl, .inl rfl⟩
  exact ⟨h.width_eq, hexact, h.levels rfl hexact⟩

/-- **An exact layer is the full expansion.** After any advances of a diagram, whatever its mergers
and the hints, its layer is exact iff the successors produced have fitted the width each time. It
then holds, in order, what expanding the root level by level gives. If it is not exact, no later
layer is. Its depth is the number of advances, and it is never wider than the width. -/
theorem exact_iff_full (h : Advanced S (Diagram.root root mergers width) hints counts d) :
    (d.layer.isExact = true ↔ width = 0 ∨ ∀ count ∈ counts, count ≤ width) ∧
    (d.layer.isExact = true → S.levels root hints = .ok d.layer.states) ∧
    (d.layer.isExact = false → ∀ more counts' e, Advanced S d more counts' e →
      e.layer.isExact = false) ∧
    d.layer.depth = hints.length ∧ counts.length = hints.length ∧
    (width ≠ 0 → d.layer.states.length ≤ width) := by
  refine ⟨h.exact_iff.trans (and_iff_right rfl), h.levels rfl, fun hd more counts' e he => ?_, ?_,
    h.length_counts, fun hwidth => h.length_le hwidth (Nat.one_le_iff_ne_zero.mpr hwidth)⟩
  · exact Bool.eq_false_iff.mpr fun hexact => Bool.eq_false_iff.mp hd (he.exact_of_exact hexact)
  · rw [h.depth_eq]
    exact Nat.zero_add _

end Diagram

namespace Table

/-- Two branches that meet again. -/
def diamondRows : List PlainRow :=
  [(0, false, [1, 2]), (1, false, [3]), (2, false, [3]), (4, true, [])]

/-- With a width of two, the layers of the diamond are exact, and the state where the branches meet
is there twice. -/
theorem exact_diamond :
    ∃ d, (Diagram.root 0 [] 2).Advanced (plain 2 diamondRows).space
        [(none, none), (some 1, some 9)] [2, 2] d ∧
      d.layer.isExact = true ∧ d.layer.states = [3, 3] ∧
      (plain 2 diamondRows).space.levels 0 [(none, none), (some 1, some 9)] = .ok [3, 3] ∧
      d.layer.depth = 2 ∧ d.layer.states.length ≤ 2 := by
  have hone : ((plain 2 diamondRows).space.branchAll [0] none none).result = .ok [1, 2] := rfl
  have htwo : ((plain 2 diamondRows).space.branchAll [1, 2] (some 1) (some 9)).result =
      .ok [3, 3] := rfl
  have hfirst : ((Diagram.root 0 [] 2).advance (plain 2 diamondRows).space none none).result =
      .ok ⟨⟨1, [1, 2], true⟩, [], 2⟩ := rfl
  have hsecond : (Diagram.advance (plain 2 diamondRows).space ⟨⟨1, [1, 2], true⟩, [], 2⟩ (some 1)
      (some 9)).result = .ok ⟨⟨2, [3, 3], true⟩, [], 2⟩ := rfl
  have hpath := (Diagram.Advanced.start.advance hone hfirst).advance htwo hsecond
  obtain ⟨hflag, hlevels, -, hdepth, -, hlength⟩ := Diagram.exact_iff_full hpath
  have hexact := hflag.mpr (.inr (by decide))
  exact ⟨_, hpath, hexact, rfl, hlevels hexact, hdepth, hlength (by decide)⟩

end Table

end Fathom
