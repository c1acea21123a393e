import Fathom.Bound
import Fathom.Proofs.Layers

/-!
# Runs of the lockstep

`Lockstep.descend` interleaves three tests with the reading of three layers. `Lockstep.verdict` is
what it answers at one place, if it ends there, and `Lockstep.note` all it reads there before it
goes on; `descend_succ` says that nothing else happens. `Lockstep.Run D best root n s` then states
that the lockstep of `root` has gone through `n` rounds and stands at `s`.

Results:
* `compute_eq_ok`: a bound is a verdict at the end of a run;
* `compute_of_run`: a run that ends within the height of the domain is one that is found;
* `compute_total`: a lockstep that always advances within that height ends;
* `verdict_eq_some`, `verdict_eq_none`: why the lockstep ends, and what is known where it does not.

`Bound.Sound` and `Domain.Trusted` say what a search may expect of bounds. A search needs no more
of a domain than that, whatever its diagrams are.
-/

namespace Fathom

variable {σ δ τ : Type}

/-! ## Counting expansions -/

/-- `t` lies `n` steps of `r` below `s`. -/
inductive Steps (r : σ → σ → Prop) : Nat → σ → σ → Prop
  | refl (s : σ) : Steps r 0 s s
  | head {n : Nat} {s t u : σ} : r s t → Steps r n t u → Steps r (n + 1) s u

namespace Steps

variable {r : σ → σ → Prop} {m n : Nat} {s t u : σ}

theorem trans (h : Steps r m s t) (h' : Steps r n t u) : Steps r (m + n) s u := by
  induction h with
  | refl => rwa [Nat.zero_add]
  | head hr _ ih =>
    rw [Nat.add_right_comm]
    exact .head hr (ih h')

theorem tail (h : Steps r n s t) (hr : r t u) : Steps r (n + 1) s u :=
  h.trans (.head hr (.refl u))

theorem exists_add (h : Steps r (m + n) s u) : ∃ t, Steps r m s t ∧ Steps r n t u := by
  induction m generalizing s with
  | zero =>
    rw [Nat.zero_add] at h
    exact ⟨s, .refl s, h⟩
  | succ m ih =>
    rw [Nat.add_right_comm] at h
    cases h with
    | head hst h =>
      obtain ⟨t, ht, hu⟩ := ih h
      exact ⟨t, .head hst ht, hu⟩

theorem succ_iff : Steps r (n + 1) s u ↔ ∃ t, Steps r n s t ∧ r t u := by
  constructor
  · intro h
    obtain ⟨t, ht, hu⟩ := h.exists_add
    cases hu with
    | head hr hu =>
      cases hu
      exact ⟨t, ht, hr⟩
  · rintro ⟨t, ht, hr⟩
    exact ht.tail hr

theorem mono {r' : σ → σ → Prop} (hr : ∀ s t, r s t → r' s t) (h : Steps r n s t) :
    Steps r' n s t := by
  induction h with
  | refl => exact .refl _
  | head h _ ih => exact .head (hr _ _ h) ih

/-- What holds at the start and is kept by every step holds all along. -/
theorem invariant {P : Nat → σ → Prop} (hs : P 0 s)
    (hr : ∀ n t u, P n t → r t u → P (n + 1) u) (h : Steps r n s t) : P n t := by
  suffices hall : ∀ m, P m s → P (m + n) t by simpa using hall 0 hs
  clear hs
  induction h with
  | refl => exact fun m hm => hm
  | head hst _ ih =>
    intro m hm
    rw [← Nat.add_assoc, Nat.add_right_comm]
    exact ih (m + 1) (hr m _ _ hm hst)

end Steps

namespace Space

/-- Some hints let `s` be followed by `t`. -/
def Leads (S : Space σ δ) (s t : σ) : Prop :=
  ∃ dual best next, S.expand s dual best = .ok next ∧ t ∈ next

/-- Without any hint, `s` is followed by `t`. -/
def Precedes (S : Space σ δ) (s t : σ) : Prop :=
  ∃ next, S.expand s none none = .ok next ∧ t ∈ next

theorem Precedes.leads {S : Space σ δ} {s t : σ} (h : S.Precedes s t) : S.Leads s t :=
  ⟨none, none, h⟩

end Space

/-! ## One place of the lockstep -/

namespace Lockstep

variable {D : Domain σ δ} {best : Option Int} {root : σ} {s s' : Lockstep σ δ} {b : Bound σ δ}
  {n : Nat}

/-- Reads all three layers. -/
def note (D : Domain σ δ) (s : Lockstep σ δ) : Lockstep σ δ :=
  ((s.noteInference D).noteRelaxation D).notePrimal D

/-- What the lockstep answers where it stands; nothing if it goes on. -/
def verdict (D : Domain σ δ) (best : Option Int) (root : σ) (s : Lockstep σ δ) :
    Option (Bound σ δ) :=
  if s.restrict.isDone then some (s.conclude D root)
  else if closes D.dual.cost best s.infer then some ((s.noteInference D).bound root .failed)
  else if closes D.cost best s.relax then
    some (((s.noteInference D).noteRelaxation D).bound root .failed)
  else if s.restrict.layer.isExact && !Cost.beats best (D.cost (s.note D).primal) then
    some ((s.note D).bound root .failed)
  else none

@[simp] theorem noteInference_infer : (s.noteInference D).infer = s.infer := by
  unfold noteInference; split <;> rfl

@[simp] theorem noteInference_relax : (s.noteInference D).relax = s.relax := by
  unfold noteInference; split <;> rfl

@[simp] theorem noteInference_restrict : (s.noteInference D).restrict = s.restrict := by
  unfold noteInference; split <;> rfl

@[simp] theorem noteRelaxation_infer : (s.noteRelaxation D).infer = s.infer := by
  unfold noteRelaxation; split <;> rfl

@[simp] theorem noteRelaxation_relax : (s.noteRelaxation D).relax = s.relax := by
  unfold noteRelaxation; split <;> rfl

@[simp] theorem noteRelaxation_restrict : (s.noteRelaxation D).restrict = s.restrict := by
  unfold noteRelaxation; split <;> rfl

@[simp] theorem noteRelaxation_inferenceDual :
    (s.noteRelaxation D).inferenceDual = s.inferenceDual := by
  unfold noteRelaxation; split <;> rfl

@[simp] theorem notePrimal_infer : (s.notePrimal D).infer = s.infer := by
  unfold notePrimal; split <;> rfl

@[simp] theorem notePrimal_relax : (s.notePrimal D).relax = s.relax := by
  unfold notePrimal; split <;> rfl

@[simp] theorem notePrimal_restrict : (s.notePrimal D).restrict = s.restrict := by
  unfold notePrimal; split <;> rfl

@[simp] theorem notePrimal_inferenceDual :
    (s.notePrimal D).inferenceDual = s.inferenceDual := by
  unfold notePrimal; split <;> rfl

@[simp] theorem notePrimal_floor : (s.notePrimal D).floor = s.floor := by
  unfold notePrimal; split <;> rfl

@[simp] theorem note_infer : (s.note D).infer = s.infer := by simp [note]

@[simp] theorem note_relax : (s.note D).relax = s.relax := by simp [note]

@[simp] theorem note_restrict : (s.note D).restrict = s.restrict := by simp [note]

theorem note_inferenceDual : (s.note D).inferenceDual = (s.noteInference D).inferenceDual := by
  simp [note]

theorem note_primal {p : σ} (h : s.restrict.layer.best D.cost = some p) :
    (s.note D).primal = p := by
  unfold note notePrimal
  simp [h]

/-- Reading layers only raises the floor. -/
theorem floor_le_note : s.floor ≤ (s.note D).floor := by
  have hi : s.floor ≤ (s.noteInference D).floor := by
    unfold noteInference
    split
    · exact Int.le_refl _
    · exact Int.le_max_left ..
  have hr : (s.noteInference D).floor ≤ ((s.noteInference D).noteRelaxation D).floor := by
    unfold noteRelaxation
    split
    · exact Int.le_refl _
    · exact Int.le_max_left ..
  rw [note, notePrimal_floor]
  exact Int.le_trans hi hr

/-- The floor is raised to the costs that are read, and no further. -/
theorem note_floor_le {c : Int} (hf : s.floor ≤ c)
    (hi : ∀ d a, s.infer = some d → d.layer.best D.dual.cost = some a → D.dual.cost a ≤ c)
    (hr : ∀ d a, s.relax = some d → d.layer.best D.cost = some a → D.cost a ≤ c) :
    (s.note D).floor ≤ c := by
  have hi' : (s.noteInference D).floor ≤ c := by
    unfold noteInference
    split
    · exact hf
    · rename_i a ha
      obtain ⟨d, hd, ha⟩ := Option.bind_eq_some_iff.mp ha
      exact Int.max_le.mpr ⟨hf, hi d a hd ha⟩
  rw [note, notePrimal_floor, noteRelaxation, noteInference_relax]
  split
  · exact hi'
  · rename_i a ha
    obtain ⟨d, hd, ha⟩ := Option.bind_eq_some_iff.mp ha
    exact Int.max_le.mpr ⟨hi', hr d a hd ha⟩

/-- **The lockstep ends with its verdict, or reads the layers and goes on.** -/
theorem descend_succ (fuel : Nat) : descend D best root (fuel + 1) s =
    match s.verdict D best root with
    | some b => pure b
    | none => (s.note D).advance D best >>= descend D best root fuel := by
  rw [descend]
  unfold verdict
  split
  · rfl
  · simp only [noteInference_infer, noteRelaxation_relax, noteInference_relax]
    split
    · rfl
    · split
      · rfl
      · simp only [notePrimal_restrict, noteRelaxation_restrict, noteInference_restrict]
        by_cases hc : (s.restrict.layer.isExact &&
            !Cost.beats best (D.cost (s.note D).primal)) = true
        · rw [if_pos hc]
          exact if_pos hc
        · rw [if_neg hc]
          exact if_neg hc

/-- The layer shows, by being empty or by its best state, that the diagram has nothing to offer. -/
theorem closes_iff {cost : τ → Int} {d : Diagram τ} : closes cost best (some d) = true ↔
    ∀ t, d.layer.best cost = some t → Cost.beats best (cost t) = false := by
  cases h : d.layer.best cost <;> simp [closes, h]

/-- No state of a layer improves if its best one does not. -/
theorem not_beats_of_best {cost : τ → Int} {layer : Layer τ} {t : τ}
    (ht : layer.best cost = some t) (hb : Cost.beats best (cost t) = false) :
    ∀ other ∈ layer.states, Cost.beats best (cost other) = false := by
  intro other hother
  refine Bool.eq_false_iff.mpr fun hbeats => ?_
  rw [Cost.beats_of_le (Layer.cost_best_le ht other hother) hbeats] at hb
  cases hb

theorem closes_eq_false_iff {cost : τ → Int} {d : Option (Diagram τ)} :
    closes cost best d = false ↔
      ∀ e, d = some e → ∃ t, e.layer.best cost = some t ∧ Cost.beats best (cost t) = true := by
  cases d with
  | none => simp [closes]
  | some d => cases h : d.layer.best cost <;> simp [closes, h]

/-- Reading layers that do not close raises the floor to costs that improve. -/
theorem beats_note_floor (hf : Cost.beats best s.floor = true)
    (hi : closes D.dual.cost best s.infer = false) (hr : closes D.cost best s.relax = false) :
    Cost.beats best (s.note D).floor = true := by
  have hi' : Cost.beats best (s.noteInference D).floor = true := by
    unfold noteInference
    split
    · exact hf
    · rename_i a ha
      obtain ⟨d, hd, ha⟩ := Option.bind_eq_some_iff.mp ha
      obtain ⟨a', ha', hb⟩ := closes_eq_false_iff.mp hi d hd
      rw [ha, Option.some.injEq] at ha'
      exact Cost.beats_max hf (ha' ▸ hb)
  rw [note, notePrimal_floor, noteRelaxation, noteInference_relax]
  split
  · exact hi'
  · rename_i a ha
    obtain ⟨d, hd, ha⟩ := Option.bind_eq_some_iff.mp ha
    obtain ⟨a', ha', hb⟩ := closes_eq_false_iff.mp hr d hd
    rw [ha, Option.some.injEq] at ha'
    exact Cost.beats_max hi' (ha' ▸ hb)

theorem isDone_iff : s.restrict.isDone = true ↔ s.restrict.layer.states = [] := by
  simp [Diagram.isDone]

/-- The best state of a layer that holds one. -/
theorem exists_best (cost : τ → Int) {layer : Layer τ} (h : layer.states ≠ []) :
    ∃ t, layer.best cost = some t :=
  Option.ne_none_iff_exists'.mp fun hn => h (Layer.best_eq_none_iff.mp hn)

/-- **What is concluded once the restriction is exhausted.** -/
theorem conclude_cases (D : Domain σ δ) (s : Lockstep σ δ) (root : σ) :
    (s.conclude D root).root = root ∧ (s.conclude D root).inferenceDual = s.inferenceDual ∧
    ((D.solved s.primal = true ∧ (s.conclude D root).primal = s.primal ∧
        (s.conclude D root).label = if s.floor < D.cost s.primal then .relaxed else .exact) ∨
      (D.solved s.primal = false ∧ s.restrict.layer.isExact = true ∧
        (s.conclude D root).label = .failed) ∨
      (D.solved s.primal = false ∧ s.restrict.layer.isExact = false ∧
        (s.conclude D root).primal = root ∧ (s.conclude D root).label = .relaxed)) := by
  unfold conclude
  cases hs : D.solved s.primal with
  | true => exact ⟨rfl, rfl, .inl ⟨rfl, rfl, rfl⟩⟩
  | false =>
    cases he : s.restrict.layer.isExact with
    | true => exact ⟨rfl, rfl, .inr (.inl ⟨rfl, rfl, rfl⟩)⟩
    | false => exact ⟨rfl, rfl, .inr (.inr ⟨rfl, rfl, rfl, rfl⟩)⟩

/-- **Why the lockstep ends**: the restriction is exhausted, or one of the diagrams shows that the
root does not improve on the best solution known. -/
theorem verdict_eq_some (h : s.verdict D best root = some b) :
    (s.restrict.layer.states = [] ∧ b = s.conclude D root) ∨
    (s.restrict.layer.states ≠ [] ∧ b.root = root ∧ b.label = .failed ∧
      (closes D.dual.cost best s.infer = true ∨ closes D.cost best s.relax = true ∨
        (s.restrict.layer.isExact = true ∧ ∃ p, s.restrict.layer.best D.cost = some p ∧
          Cost.beats best (D.cost p) = false))) := by
  unfold verdict at h
  split at h
  · rename_i hd
    exact .inl ⟨isDone_iff.mp hd, (Option.some.inj h).symm⟩
  · rename_i hd
    have hne : s.restrict.layer.states ≠ [] := fun he => hd (isDone_iff.mpr he)
    refine .inr ⟨hne, ?_⟩
    split at h
    · rename_i hc
      cases h
      exact ⟨rfl, rfl, .inl hc⟩
    · split at h
      · rename_i hc
        cases h
        exact ⟨rfl, rfl, .inr (.inl hc)⟩
      · split at h
        · rename_i hc
          cases h
          obtain ⟨p, hp⟩ := exists_best D.cost hne
          rw [note_primal hp, Bool.and_eq_true, Bool.not_eq_true'] at hc
          exact ⟨rfl, rfl, .inr (.inr ⟨hc.1, p, hp, hc.2⟩)⟩
        · cases h

/-- **What is known where the lockstep goes on.** -/
theorem verdict_eq_none (h : s.verdict D best root = none) :
    s.restrict.layer.states ≠ [] ∧ closes D.dual.cost best s.infer = false ∧
      closes D.cost best s.relax = false ∧ ∃ p, s.restrict.layer.best D.cost = some p ∧
        (s.restrict.layer.isExact = true → Cost.beats best (D.cost p) = true) := by
  unfold verdict at h
  split at h
  · cases h
  · rename_i hd
    have hne : s.restrict.layer.states ≠ [] := fun he => hd (isDone_iff.mpr he)
    obtain ⟨p, hp⟩ := exists_best D.cost hne
    split at h
    · cases h
    · split at h
      · cases h
      · split at h
        · cases h
        · rename_i hi hr hc
          rw [note_primal hp, Bool.and_eq_true, Bool.not_eq_true'] at hc
          refine ⟨hne, Bool.eq_false_iff.mpr hi, Bool.eq_false_iff.mpr hr, p, hp, fun he => ?_⟩
          exact Bool.of_not_eq_false fun hb => hc ⟨he, hb⟩

/-! ## Advancing -/

theorem eq_none_of_rel {α β : Type} {r : α → β → Prop} {o : Option β} (h : Option.Rel r none o) :
    o = none := by
  cases h
  rfl

theorem exists_of_rel {α β : Type} {r : α → β → Prop} {o : Option α} {b : β}
    (h : Option.Rel r o (some b)) : ∃ a, o = some a ∧ r a b := by
  cases h with
  | some h => exact ⟨_, rfl, h⟩

/-- All diagrams one layer further. -/
structure Advances (D : Domain σ δ) (best : Option Int) (s s' : Lockstep σ δ) : Prop where
  infer : Option.Rel (fun d d' => (d.advance D.dual s.inferenceDual best).result = .ok d')
    s.infer s'.infer
  relax : Option.Rel (fun d d' => (d.advance D.toSpace s.inferenceDual best).result = .ok d')
    s.relax s'.relax
  restrict : (s.restrict.advance D.toSpace s.inferenceDual best).result = .ok s'.restrict
  kept : s' = { s with infer := s'.infer, relax := s'.relax, restrict := s'.restrict }

namespace Advances

theorem floor (h : Advances D best s s') : s'.floor = s.floor := by rw [h.kept]

theorem inferenceDual (h : Advances D best s s') : s'.inferenceDual = s.inferenceDual := by
  rw [h.kept]

theorem primal (h : Advances D best s s') : s'.primal = s.primal := by rw [h.kept]

theorem infer_eq_none (h : Advances D best (s.note D) s') (hs : s.infer = none) :
    s'.infer = none := by
  have hinfer := h.infer
  rw [note_infer, hs] at hinfer
  exact eq_none_of_rel hinfer

theorem relax_eq_none (h : Advances D best (s.note D) s') (hs : s.relax = none) :
    s'.relax = none := by
  have hrelax := h.relax
  rw [note_relax, hs] at hrelax
  exact eq_none_of_rel hrelax

/-- The inference diagram has come from one a layer above. -/
theorem exists_infer (h : Advances D best (s.note D) s') {d' : Diagram δ}
    (hd' : s'.infer = some d') : ∃ d, s.infer = some d ∧
      (d.advance D.dual (s.note D).inferenceDual best).result = .ok d' := by
  have hinfer := h.infer
  rw [note_infer, hd'] at hinfer
  obtain ⟨d, hd, hadvance⟩ := exists_of_rel hinfer
  exact ⟨d, hd, hadvance⟩

theorem exists_relax (h : Advances D best (s.note D) s') {d' : Diagram σ}
    (hd' : s'.relax = some d') : ∃ d, s.relax = some d ∧
      (d.advance D.toSpace (s.note D).inferenceDual best).result = .ok d' := by
  have hrelax := h.relax
  rw [note_relax, hd'] at hrelax
  obtain ⟨d, hd, hadvance⟩ := exists_of_rel hrelax
  exact ⟨d, hd, hadvance⟩

end Advances

/-- Advances a diagram if it is there. -/
def advanceIf {ρ : Type} (S : Space τ ρ) (dual : Option ρ) (best : Option Int) :
    Option (Diagram τ) → Traced (Option (Diagram τ))
  | none => pure none
  | some d => some <$> d.advance S dual best

theorem advanceIf_eq_ok_iff {ρ : Type} {S : Space τ ρ} {dual : Option ρ}
    {o o' : Option (Diagram τ)} : (advanceIf S dual best o).result = .ok o' ↔
      Option.Rel (fun d d' => (d.advance S dual best).result = .ok d') o o' := by
  cases o with
  | none =>
    rw [advanceIf, Traced.result_pure, Except.ok.injEq]
    constructor
    · rintro rfl
      exact .none
    · rintro ⟨⟩
      rfl
  | some d =>
    rw [advanceIf, Traced.result_map, map_eq_ok_iff]
    constructor
    · rintro ⟨d', h, rfl⟩
      exact .some h
    · rintro ⟨h⟩
      exact ⟨_, h, rfl⟩

theorem advance_eq : s.advance D best = (do
    let infer ← advanceIf D.dual s.inferenceDual best s.infer
    let relax ← advanceIf D.toSpace s.inferenceDual best s.relax
    let restrict ← s.restrict.advance D.toSpace s.inferenceDual best
    pure { s with infer, relax, restrict }) := by
  unfold advance
  cases s.infer <;> cases s.relax <;> rfl

theorem advance_eq_ok_iff : (s.advance D best).result = .ok s' ↔ Advances D best s s' := by
  simp only [advance_eq, Traced.result_bind, Traced.result_pure, bind_eq_ok_iff,
    advanceIf_eq_ok_iff, Except.ok.injEq]
  constructor
  · rintro ⟨infer, hi, relax, hr, restrict, hd, rfl⟩
    exact ⟨hi, hr, hd, rfl⟩
  · intro h
    exact ⟨s'.infer, h.infer, s'.relax, h.relax, s'.restrict, h.restrict, h.kept.symm⟩

/-- The lockstep advances if each of its diagrams does. -/
theorem exists_advances
    (hi : ∀ d, s.infer = some d →
      ∃ d', (d.advance D.dual (s.note D).inferenceDual best).result = .ok d')
    (hr : ∀ d, s.relax = some d →
      ∃ d', (d.advance D.toSpace (s.note D).inferenceDual best).result = .ok d')
    (hd : ∃ d', (s.restrict.advance D.toSpace (s.note D).inferenceDual best).result = .ok d') :
    ∃ s', Advances D best (s.note D) s' := by
  obtain ⟨restrict, hd⟩ := hd
  obtain ⟨infer, hi⟩ : ∃ o, Option.Rel (fun d d' =>
      (d.advance D.dual (s.note D).inferenceDual best).result = .ok d') s.infer o := by
    cases hs : s.infer with
    | none => exact ⟨none, .none⟩
    | some d =>
      obtain ⟨d', hd'⟩ := hi d hs
      exact ⟨some d', .some hd'⟩
  obtain ⟨relax, hr⟩ : ∃ o, Option.Rel (fun d d' =>
      (d.advance D.toSpace (s.note D).inferenceDual best).result = .ok d') s.relax o := by
    cases hs : s.relax with
    | none => exact ⟨none, .none⟩
    | some d =>
      obtain ⟨d', hd'⟩ := hr d hs
      exact ⟨some d', .some hd'⟩
  refine ⟨{ s.note D with infer, relax, restrict }, ?_, ?_, ?_, rfl⟩
  · rw [note_infer]
    exact hi
  · rw [note_relax]
    exact hr
  · rw [note_restrict]
    exact hd

/-! ## Runs -/

theorem start_eq_ok_iff : Lockstep.start D root = .ok s ↔ ∃ infer relax restrict,
    D.infer root = .ok infer ∧ D.relax root = .ok relax ∧ D.restrict root = .ok (some restrict) ∧
      s = ⟨infer, relax, restrict, D.cost root, none, none, root⟩ := by
  simp only [Lockstep.start, bind_eq_ok_iff]
  constructor
  · rintro ⟨infer, hi, relax, hr, restrict, hd, h⟩
    cases restrict with
    | none => cases h
    | some restrict => exact ⟨infer, relax, restrict, hi, hr, hd, (Except.ok.inj h).symm⟩
  · rintro ⟨infer, relax, restrict, hi, hr, hd, rfl⟩
    exact ⟨infer, hi, relax, hr, some restrict, hd, rfl⟩

/-- The lockstep of `root` stands at `s` after `n` rounds. -/
inductive Run (D : Domain σ δ) (best : Option Int) (root : σ) : Nat → Lockstep σ δ → Prop
  | start {s : Lockstep σ δ} : Lockstep.start D root = .ok s → Run D best root 0 s
  | step {n : Nat} {s s' : Lockstep σ δ} : Run D best root n s → s.verdict D best root = none →
      Advances D best (s.note D) s' → Run D best root (n + 1) s'

theorem descend_eq_ok {fuel : Nat} (hr : Run D best root n s)
    (h : (descend D best root fuel s).result = .ok b) :
    ∃ m s', Run D best root m s' ∧ s'.verdict D best root = some b := by
  induction fuel generalizing n s with
  | zero => cases h
  | succ fuel ih =>
    rw [descend_succ] at h
    cases hv : s.verdict D best root with
    | some b' =>
      rw [hv] at h
      cases h
      exact ⟨n, s, hr, hv⟩
    | none =>
      simp only [hv, Traced.result_bind] at h
      obtain ⟨s', ha, h⟩ := bind_eq_ok_iff.mp h
      exact ih (.step hr hv (advance_eq_ok_iff.mp ha)) h

theorem descend_of_run {m : Nat} {first : Lockstep σ δ} (hs : Lockstep.start D root = .ok first)
    (hr : Run D best root n s) (hv : s.verdict D best root = some b) :
    (descend D best root (n + m + 1) first).result = .ok b := by
  suffices h : ∀ n s, Run D best root n s → ∀ m,
      (descend D best root (n + m + 1) first).result =
        (descend D best root (m + 1) s).result by
    rw [h n s hr m, descend_succ, hv]
    rfl
  clear hr hv
  intro n s hr
  induction hr with
  | start hs' =>
    intro m
    rw [hs, Except.ok.injEq] at hs'
    rw [hs', Nat.zero_add]
  | @step n s s' _ hv ha ih =>
    intro m
    rw [Nat.add_right_comm n 1 m, Nat.add_assoc n m 1, ih (m + 1), descend_succ, hv]
    simp only [Traced.result_bind, advance_eq_ok_iff.mpr ha]
    rfl

/-- **A lockstep ends** if it always advances and goes on for fewer than `limit` rounds. -/
theorem exists_verdict {limit : Nat} (hs : Lockstep.start D root = .ok s)
    (hgo : ∀ n s, Run D best root n s → s.verdict D best root = none →
      n < limit ∧ ∃ s', Advances D best (s.note D) s') :
    ∃ n s b, n ≤ limit ∧ Run D best root n s ∧ s.verdict D best root = some b := by
  suffices hmain : ∀ m n s, Run D best root n s → n ≤ limit → limit ≤ n + m →
      ∃ n s b, n ≤ limit ∧ Run D best root n s ∧ s.verdict D best root = some b by
    exact hmain limit 0 s (.start hs) (Nat.zero_le _) (by omega)
  intro m
  induction m with
  | zero =>
    intro n s hrun hn hm
    cases hv : s.verdict D best root with
    | some b => exact ⟨n, s, b, hn, hrun, hv⟩
    | none =>
      have := (hgo n s hrun hv).1
      omega
  | succ m ih =>
    intro n s hrun hn hm
    cases hv : s.verdict D best root with
    | some b => exact ⟨n, s, b, hn, hrun, hv⟩
    | none =>
      obtain ⟨hlt, s', hadv⟩ := hgo n s hrun hv
      exact ih (n + 1) s' (.step hrun hv hadv) hlt (by omega)

end Lockstep

namespace Bound

variable {D : Domain σ δ} {best : Option Int} {root : σ} {b : Bound σ δ}

/-- **A bound is the verdict at the end of a run.** -/
theorem compute_eq_ok (h : (compute D root best).result = .ok b) :
    ∃ n s, Lockstep.Run D best root n s ∧ s.verdict D best root = some b := by
  simp only [compute, Traced.result_bind, Traced.result_silent] at h
  obtain ⟨s, hs, h⟩ := bind_eq_ok_iff.mp h
  exact Lockstep.descend_eq_ok (.start hs) h

/-- **A run that ends within the height of the domain is found.** -/
theorem compute_of_run {n : Nat} {s : Lockstep σ δ} (hn : n ≤ D.height)
    (hr : Lockstep.Run D best root n s) (hv : s.verdict D best root = some b) :
    (compute D root best).result = .ok b := by
  obtain ⟨first, hs⟩ : ∃ first, Lockstep.start D root = .ok first := by
    clear hn hv
    induction hr with
    | start hs => exact ⟨_, hs⟩
    | step _ _ _ ih => exact ih
  obtain ⟨m, hm⟩ := Nat.le.dest hn
  simp only [compute, Traced.result_bind, Traced.result_silent]
  rw [hs, ← hm]
  exact Lockstep.descend_of_run hs hr hv

/-- **A state is bounded** if its lockstep always advances and goes on for fewer rounds than the
domain is high. -/
theorem compute_total (best : Option Int) {s : Lockstep σ δ} (hs : Lockstep.start D root = .ok s)
    (hgo : ∀ n s, Lockstep.Run D best root n s → s.verdict D best root = none →
      n < D.height ∧ ∃ s', Lockstep.Advances D best (s.note D) s') :
    ∃ n s b, Lockstep.Run D best root n s ∧ s.verdict D best root = some b ∧
      (compute D root best).result = .ok b := by
  obtain ⟨n, s, b, hn, hrun, hv⟩ := Lockstep.exists_verdict hs hgo
  exact ⟨n, s, b, hrun, hv, compute_of_run hn hrun hv⟩

/-! ## Bounds that can be trusted -/

/-- What a bound tells about its root, when it was computed against `best`. `offers s c` stands for
a solution of cost `c` below `s`, and `explored` for the states a search may meet. -/
structure Sound (D : Domain σ δ) (explored : σ → Prop) (offers : σ → Int → Prop)
    (best : Option Int) (b : Bound σ δ) : Prop where
  /-- The primal of a bound that did not fail is a state of the search. -/
  primal : b.label ≠ .failed → explored b.primal
  /-- Nothing improves below a root that failed. -/
  failed : b.label = .failed → ∀ c, offers b.root c → Cost.beats best c = false
  /-- Nothing that improves costs less than an exact primal. -/
  exact : b.label = .exact → ∀ c, offers b.root c → Cost.beats best c = true →
    D.solved b.primal = true ∧ D.cost b.primal ≤ c
  /-- Branching on a relaxed root stays within the search and loses nothing that improves. -/
  relaxed : b.label = .relaxed → ∀ best' next,
    D.expand b.root b.inferenceDual best' = .ok next →
      (∀ t ∈ next, explored t) ∧
        ∀ c, offers b.root c → Cost.beats best' c = true → ∃ t ∈ next, offers t c

end Bound

namespace Domain

/-- The bounds of all states that a search may meet are sound. -/
structure Trusted (D : Domain σ δ) (explored : σ → Prop) (offers : σ → Int → Prop) : Prop where
  cost_le : ∀ s c, explored s → offers s c → D.cost s ≤ c
  sound : ∀ s best b, explored s → (Bound.compute D s best).result = .ok b →
    b.root = s ∧ b.Sound D explored offers best

/-- No bound of a state that a search may meet faults, nor does branching on it, and `rank` counts
down along the branches. -/
structure Answering (D : Domain σ δ) (explored : σ → Prop) (rank : σ → Nat) : Prop where
  bounds : ∀ s best, explored s → ∃ b, (Bound.compute D s best).result = .ok b
  branches : ∀ s best b, explored s → (Bound.compute D s best).result = .ok b →
    b.label = .relaxed → ∀ best', ∃ next, D.expand s b.inferenceDual best' = .ok next ∧
      ∀ t ∈ next, rank t < rank s

end Domain

end Fathom
