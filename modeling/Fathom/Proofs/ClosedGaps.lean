import Fathom.Proofs.ExactLayers
import Fathom.Proofs.Product

/-!
# Relaxations that close the gap

If the restriction and the relaxation of a state both start at the state and have no width, they are
one diagram, advanced twice under the same hints. The best state of a restriction layer is then the
best state of the relaxation layer beside it, and its cost has entered the floor before it becomes
the primal. The inference diagram changes the hints, but those of both diagrams alike.

`Lockstep.Walked` says of the three diagrams that they were advanced under one list of hints,
whatever they are; `Lockstep.Twinned` is what follows for a state that is `Domain.Unmerged`.

Results:
* `walked_of_run`: a run of the lockstep advances all diagrams under the same hints;
* `Unmerged.label_ne_relaxed`: no gap is left;
* `Unmerged.exists_bound`: a finite tree is bounded;
* `Unmerged.closes_gap`: such a root is the only node that a search bounds.
-/

namespace Fathom

variable {σ δ τ ρ : Type}

namespace Layer

/-- The best state depends on the states only. -/
theorem best_congr (cost : τ → Int) {layer layer' : Layer τ} (h : layer.states = layer'.states) :
    layer.best cost = layer'.best cost := by
  unfold best
  rw [h]

end Layer

namespace Domain

/-- The restriction and the relaxation of the state both start at it, without a width. -/
structure Unmerged (D : Domain σ δ) (s : σ) : Prop where
  restrict : ∃ mergers, D.restrict s = .ok (some (Diagram.root s mergers 0))
  relax : ∃ mergers, D.relax s = .ok (some (Diagram.root s mergers 0))

/-- The search tree below the state is finite, and nothing faults in it or in the inference
diagram. -/
structure Finishes (D : Domain σ δ) (s : σ) : Prop where
  finite : ∀ n t, Steps D.Leads n s t → n < D.height
  expands : ∀ n t, Steps D.Leads n s t → ∀ dual best, ∃ next, D.expand t dual best = .ok next
  infer : ∃ infer, D.infer s = .ok infer ∧ ∀ d, infer = some d → ∀ hints counts e,
    Diagram.Advanced D.dual d hints counts e → ∀ dual best, ∃ next,
      (e.advance D.dual dual best).result = .ok next

end Domain

namespace Lockstep

variable {D : Domain σ δ} {best : Option Int} {root : σ} {s s' : Lockstep σ δ} {n : Nat}
  {hints : List (Option δ × Option Int)}

/-! ## The hints of a run -/

/-- The diagram was advanced under these hints. -/
def WalkedFrom (S : Space τ ρ) (hints : List (Option ρ × Option Int)) (d e : Diagram τ) : Prop :=
  ∃ counts, Diagram.Advanced S d hints counts e

/-- Each of the diagrams was advanced under these hints. -/
structure Walked (D : Domain σ δ) (root : σ) (hints : List (Option δ × Option Int))
    (s : Lockstep σ δ) : Prop where
  infer : ∃ d, D.infer root = .ok d ∧ Option.Rel (WalkedFrom D.dual hints) d s.infer
  relax : ∃ d, D.relax root = .ok d ∧ Option.Rel (WalkedFrom D.toSpace hints) d s.relax
  restrict : ∃ d, D.restrict root = .ok (some d) ∧ WalkedFrom D.toSpace hints d s.restrict

theorem rel_walkedFrom_start (S : Space τ ρ) (o : Option (Diagram τ)) :
    Option.Rel (WalkedFrom S []) o o := by
  cases o with
  | none => exact .none
  | some d => exact .some ⟨[], .start⟩

theorem rel_walkedFrom_tail {S : Space τ ρ} {hints : List (Option ρ × Option Int)}
    {dual : Option ρ} {o o₁ o₂ : Option (Diagram τ)} (h : Option.Rel (WalkedFrom S hints) o o₁)
    (hadv : Option.Rel (fun d d' => (d.advance S dual best).result = .ok d') o₁ o₂) :
    Option.Rel (WalkedFrom S (hints ++ [(dual, best)])) o o₂ := by
  cases h with
  | none =>
    cases hadv
    exact .none
  | some h =>
    cases hadv with
    | some hnext =>
      obtain ⟨counts, h⟩ := h
      exact .some (h.tail hnext)

/-- **All diagrams of a lockstep are advanced under the same hints**, one for each round. -/
theorem walked_of_run (h : Run D best root n s) :
    ∃ hints, hints.length = n ∧ Walked D root hints s := by
  induction h with
  | start hs =>
    obtain ⟨infer, relax, restrict, hi, hx, hd, rfl⟩ := start_eq_ok_iff.mp hs
    exact ⟨[], rfl, ⟨infer, hi, rel_walkedFrom_start _ _⟩, ⟨relax, hx, rel_walkedFrom_start _ _⟩,
      restrict, hd, [], .start⟩
  | @step n s s' _ _ hadv ih =>
    obtain ⟨hints, rfl, hinfer, hrelax, restrict, hd, counts, hrestrict⟩ := ih
    obtain ⟨infer, hi, hinfer⟩ := hinfer
    obtain ⟨relax, hx, hrelax⟩ := hrelax
    have hnext := hadv.restrict
    rw [note_restrict] at hnext
    refine ⟨hints ++ [((s.note D).inferenceDual, best)], by simp, ⟨infer, hi, ?_⟩,
      ⟨relax, hx, ?_⟩, restrict, hd, hrestrict.tail hnext⟩
    · exact rel_walkedFrom_tail hinfer (note_infer (D := D) ▸ hadv.infer)
    · exact rel_walkedFrom_tail hrelax (note_relax (D := D) ▸ hadv.relax)

/-! ## Twins -/

/-- The restriction and the relaxation hold the same states, those that expanding the root gives. -/
structure Twinned (D : Domain σ δ) (root : σ) (hints : List (Option δ × Option Int))
    (s : Lockstep σ δ) : Prop where
  unbounded : s.restrict.Unbounded
  exact : s.restrict.layer.isExact = true
  levels : D.levels root hints = .ok s.restrict.layer.states
  relax : ∃ d, s.relax = some d ∧ d.Unbounded ∧ d.layer.states = s.restrict.layer.states

theorem Walked.twinned (hroot : D.Unmerged root) (h : Walked D root hints s) :
    Twinned D root hints s := by
  obtain ⟨restrict, hd, counts, hrestrict⟩ := h.restrict
  obtain ⟨relax, hx, hrelax⟩ := h.relax
  obtain ⟨mergers, hmergers⟩ := hroot.restrict
  rw [hmergers, Except.ok.injEq, Option.some.injEq] at hd
  subst hd
  obtain ⟨mergers', hmergers'⟩ := hroot.relax
  rw [hmergers', Except.ok.injEq] at hx
  subst hx
  obtain ⟨hunbounded, hexact, hlevels⟩ := hrestrict.unbounded
  refine ⟨hunbounded, hexact, hlevels, ?_⟩
  generalize s.relax = o at hrelax
  cases hrelax with
  | some hrelax =>
    obtain ⟨counts', hrelax⟩ := hrelax
    obtain ⟨hunbounded', -, hlevels'⟩ := hrelax.unbounded
    rw [hlevels, Except.ok.injEq] at hlevels'
    exact ⟨_, rfl, hunbounded', hlevels'.symm⟩

theorem twinned_of_run (hroot : D.Unmerged root) (h : Run D best root n s) :
    ∃ hints, hints.length = n ∧ Walked D root hints s ∧ Twinned D root hints s := by
  obtain ⟨hints, hlen, hwalked⟩ := walked_of_run h
  exact ⟨hints, hlen, hwalked, hwalked.twinned hroot⟩

/-! ## The floor -/

/-- Reading the relaxation raises the floor to the cost of its best state. -/
theorem cost_le_note_floor {d : Diagram σ} {t : σ} (hd : s.relax = some d)
    (ht : d.layer.best D.cost = some t) : D.cost t ≤ (s.note D).floor := by
  have hbind : ((s.noteInference D).relax.bind fun d => d.layer.best D.cost) = some t := by
    rw [noteInference_relax, hd]
    exact ht
  rw [note, notePrimal_floor, noteRelaxation, hbind]
  exact Int.le_max_right ..

/-- **The floor is never below the primal.** -/
theorem cost_primal_le_floor (hroot : D.Unmerged root) (h : Run D best root n s) :
    D.cost s.primal ≤ s.floor := by
  cases h with
  | start hs =>
    obtain ⟨infer, relax, restrict, -, -, -, rfl⟩ := start_eq_ok_iff.mp hs
    exact Int.le_refl _
  | step h hv hadv =>
    obtain ⟨hints, -, -, htwins⟩ := twinned_of_run hroot h
    obtain ⟨d, hd, -, hstates⟩ := htwins.relax
    obtain ⟨-, -, -, p, hp, -⟩ := verdict_eq_none hv
    rw [hadv.primal, hadv.floor, note_primal hp]
    exact cost_le_note_floor hd ((Layer.best_congr D.cost hstates).trans hp)

end Lockstep

namespace Domain.Unmerged

open Lockstep

variable {D : Domain σ δ} {root : σ} {best : Option Int} {b : Bound σ δ}

/-! ## Bounds -/

/-- **No gap is left.** -/
theorem label_ne_relaxed (h : D.Unmerged root) (hb : (Bound.compute D root best).result = .ok b) :
    b.label ≠ .relaxed := by
  obtain ⟨n, L, hrun, hv⟩ := Bound.compute_eq_ok hb
  obtain ⟨-, rfl⟩ | ⟨-, -, hfailed, -⟩ := verdict_eq_some hv
  · obtain ⟨hints, -, -, htwins⟩ := twinned_of_run h hrun
    have hfloor := cost_primal_le_floor h hrun
    obtain ⟨-, -, ⟨-, -, hl⟩ | ⟨-, -, hl⟩ | ⟨-, hexact, -⟩⟩ := conclude_cases D L root
    · rw [hl, if_neg (Int.not_lt.mpr hfloor)]
      simp
    · rw [hl]
      simp
    · rw [htwins.exact] at hexact
      cases hexact
  · rw [hfailed]
    simp

/-- **A finite tree in which nothing faults is bounded.** -/
theorem exists_bound (h : D.Unmerged root) (hfinishes : D.Finishes root) (best : Option Int) :
    ∃ b, (Bound.compute D root best).result = .ok b := by
  obtain ⟨infer, hi, hinfer⟩ := hfinishes.infer
  obtain ⟨mergers, hd⟩ := h.restrict
  obtain ⟨mergers', hx⟩ := h.relax
  have hstart := start_eq_ok_iff.mpr ⟨infer, _, _, hi, hx, hd, rfl⟩
  obtain ⟨-, -, b, -, -, hb⟩ := Bound.compute_total best hstart fun n L hrun hv => by
    obtain ⟨hints, rfl, hwalked, htwins⟩ := twinned_of_run h hrun
    have hsteps : ∀ t ∈ L.restrict.layer.states, Steps D.Leads hints.length root t :=
      fun t ht => Space.steps_of_levels htwins.levels ht
    obtain ⟨hne, -⟩ := verdict_eq_none hv
    obtain ⟨t, ht⟩ := List.exists_mem_of_ne_nil _ hne
    refine ⟨hfinishes.finite _ t (hsteps t ht), ?_⟩
    refine exists_advances (fun d hd => ?_) (fun d hd => ?_) ?_
    · obtain ⟨infer', hi', hwalks⟩ := hwalked.infer
      rw [hi, Except.ok.injEq] at hi'
      subst hi'
      rw [hd] at hwalks
      cases hwalks with
      | some hwalks =>
        obtain ⟨counts, hwalks⟩ := hwalks
        exact hinfer _ rfl hints counts d hwalks _ best
    · obtain ⟨e, he, hunbounded, hstates⟩ := htwins.relax
      rw [hd, Option.some.injEq] at he
      subst he
      refine hunbounded.advance_total fun t ht => hfinishes.expands _ t (hsteps t ?_) _ best
      exact hstates ▸ ht
    · exact htwins.unbounded.advance_total fun t ht =>
        hfinishes.expands _ t (hsteps t ht) _ best
  exact ⟨b, hb⟩

/-! ## Searches -/

/-- A search does not branch on the root. -/
theorem not_branches (h : D.Unmerged root) (t : σ) : ¬D.Branches root t := by
  rintro ⟨best, b, best', next, hb, hlabel, -⟩
  exact h.label_ne_relaxed hb hlabel

theorem eq_root_of_meets (h : D.Unmerged root) {t : σ} (ht : D.Meets root t) : t = root := by
  obtain ⟨n, hsteps⟩ := ht
  cases hsteps with
  | refl => rfl
  | head hbranches => exact absurd hbranches (h.not_branches _)

theorem calm (h : D.Unmerged root) (hfinishes : D.Finishes root) : D.Calm root := by
  refine ⟨fun t best ht => ?_, fun t best b best' ht hb hlabel => ?_⟩
  · rw [h.eq_root_of_meets ht]
    exact h.exists_bound hfinishes best
  · rw [h.eq_root_of_meets ht] at hb
    exact absurd hlabel (h.label_ne_relaxed hb)

end Domain.Unmerged

namespace Search

variable {D : Domain σ δ} {root : σ} {config : Config} {s : Search σ δ}
  {batches : List (List (Bound σ δ))}

/-- **The first round of a search bounds its root**, against no incumbent, and nothing else. -/
theorem bound_start (h : (start root config).bound D = (s, .ok batches)) :
    ∃ b, batches.flatten = [b] ∧ (Bound.compute D root none).result = .ok b := by
  have hwf : WellFormed (start root config : Search σ δ) := wellFormed_start root config
  obtain ⟨popped, htaken, hflatten, hlen⟩ := dispatch_taken D (start root config).config.workers
    { (start root config : Search σ δ) with rounds := (start root config : Search σ δ).rounds + 1 }
  rw [Search.bound] at h
  generalize dispatch D _ _ = d at h htaken hflatten
  obtain ⟨states, s₁⟩ := d
  have hpopped : popped = [Node.root root] := by
    have hlength : popped.length = min config.normalized.capacity 1 := hlen hwf.full
    have hcapacity : 0 < config.normalized.capacity := Nat.mul_pos hwf.workers hwf.batchSize
    obtain ⟨rfl, -⟩ | ⟨hone, -⟩ := List.singleton_eq_append_iff.mp htaken.toList
    · rw [List.length_nil] at hlength
      omega
    · exact hone
  subst hpopped
  have hbounds := boundAll_eq_ok (Prod.mk.inj h).2
  rw [hflatten, htaken.best] at hbounds
  change List.Forall₂ _ [root] _ at hbounds
  obtain ⟨b, rest, hb, hrest, hflat⟩ := List.forall₂_cons_left_iff.mp hbounds
  rw [List.forall₂_nil_left_iff.mp hrest] at hflat
  exact ⟨b, hflat, hb⟩

/-- **A root that is not branched on is the only node**: the search ends after one round. -/
theorem heads_of_not_branches {t : Search σ δ} {clock : Nat → Nat → Nat}
    (hroot : ∀ u, ¬D.Branches root u)
    (hround : (start root config).round D (clock 0) = (t, .ok false)) :
    Heads D clock (start root config) 1 [] t ∧ t.queue.isEmpty = true ∧ t.counted = 1 := by
  obtain ⟨popped, rest, hturn⟩ := round_turn hround
  have hentered : (start root config).entered D (clock 0) = [] := by
    refine List.eq_nil_iff_forall_not_mem.mpr fun node hnode => ?_
    obtain ⟨node', hnode', hbranches⟩ := hturn.branched node hnode
    have hmem : node' ∈ (start root config : Search σ δ).queue.toList :=
      hturn.before ▸ List.mem_append_left _ hnode'
    rw [List.mem_singleton.mp hmem] at hbranches
    exact hroot _ hbranches
  have hheads : Heads D clock (start root config) 1
      ([] ++ (start root config).entered D (clock 0)) t := .round .start rfl hround
  rw [List.nil_append, hentered] at hheads
  -- the root has been counted, so it has left the queue
  have hpopped := List.length_pos_of_ne_nil
    (hturn.popped_ne_nil (wellFormed_start root config) rfl)
  have hcounted : t.counted = 0 + popped.length := hturn.counted rfl
  have hbalance : t.counted + t.queue.size = 1 := hheads.accounted.balance
  have hsize : t.queue.size = 0 := by omega
  exact ⟨hheads, (Queue.isEmpty_iff hheads.accounted.wellFormed.full).mpr
    (List.length_eq_zero_iff.mp hsize), by omega⟩

end Search

/-- **An unbounded relaxation closes the gap.** A state whose restriction and relaxation both start
at it and have no width is never labelled relaxed, whatever its inference diagram and the incumbent.
If the root of a search is such a state and its tree is finite, a search without budgets bounds the
root and no other node, and ends after one round. -/
theorem Domain.Unmerged.closes_gap {D : Domain σ δ} {root : σ} (h : D.Unmerged root) :
    (∀ best b, (Bound.compute D root best).result = .ok b → b.label ≠ .relaxed) ∧
    (D.Finishes root →
      (∀ best, ∃ b, (Bound.compute D root best).result = .ok b) ∧
      ∀ config : Config, config.Unlimited → ∀ clock : Nat → Nat → Nat, ∃ b batches s t,
        (Bound.compute D root none).result = .ok b ∧
        (Search.start root config).bound D = (s, .ok batches) ∧ batches.flatten = [b] ∧
        Search.Heads D clock (Search.start root config) 1 [] t ∧
        ∀ fuel, 2 ≤ fuel →
          (Search.start root config).minimize D clock fuel = (t.conclude, .ok .exhausted) ∧
          t.conclude.nodes + t.conclude.fails = 1) := by
  refine ⟨fun best b hb => h.label_ne_relaxed hb, fun hfinishes => ?_⟩
  have hcalm : D.Calm root := h.calm hfinishes
  refine ⟨h.exists_bound hfinishes, fun config hconfig clock => ?_⟩
  obtain ⟨batches, s, hbound, -⟩ := hcalm.bound (Search.rooted_start config)
  obtain ⟨b, hflatten, hb⟩ := Search.bound_start hbound
  obtain ⟨stopped, t, hround⟩ := hcalm.round (Search.rooted_start config) (clock 0)
  obtain rfl := Search.stopped_eq_false hconfig hround
  obtain ⟨hheads, hempty, hcounted⟩ := Search.heads_of_not_branches h.not_branches hround
  refine ⟨b, batches, s, t, hb, hbound, hflatten, hheads, fun fuel hfuel => ⟨?_, ?_⟩⟩
  · obtain ⟨more, rfl⟩ := Nat.exists_eq_add_of_le hfuel
    rw [Nat.add_assoc 1 1 more, hheads.minimize, Nat.add_comm 1 more,
      Search.minimize_of_empty hempty]
  · exact (Search.counted_conclude t).trans hcounted

namespace Table

/-- The diamond with all three diagrams, none of which has a width. -/
abbrev openDiamond : Domain Nat Nat :=
  { plain 0 diamondRows with infer := some ⟨none, 0, []⟩, relax := some ⟨none, 0, []⟩ }.domain 3

/-- The depths of the states of the diamond. -/
def diamondLevel (id : Nat) : Nat := [0, 1, 1, 2].getD id 0

theorem steps_openDiamond {n t : Nat} (h : Steps openDiamond.Leads n 0 t) :
    n < 3 ∧ ∃ row, diamondRows[t]? = some row := by
  have hlevels : IsLayered diamondRows diamondLevel 2 = true := by decide
  have hsteps : Steps ((plain 0 diamondRows).domain 3).Precedes n 0 t := by
    refine h.mono fun s u ⟨dual, best, next, he, hu⟩ => ⟨next, ?_, hu⟩
    exact (expand_hintless dual best).symm.trans he
  obtain ⟨rfl, row, hrow⟩ := steps_plain hlevels (by decide) rfl hsteps
  have hlt : t < 4 := (List.getElem?_eq_some_iff.mp hrow).1
  have hlevel : ∀ id < 4, diamondLevel id < 3 := by decide
  exact ⟨hlevel t hlt, row, hrow⟩

theorem expand_openDiamond {n t : Nat} (h : Steps openDiamond.Leads n 0 t) (dual : Option Nat)
    (best : Option Int) : ∃ next, openDiamond.expand t dual best = .ok next := by
  obtain ⟨-, row, hrow⟩ := steps_openDiamond h
  have he : (plain 0 diamondRows).expand t dual best = _ := expand_plain dual best hrow
  exact ⟨row.2.2, he⟩

/-- Whatever the tuning, a search of the diamond bounds its root only. -/
theorem closes_openDiamond : openDiamond.Unmerged 0 ∧ openDiamond.Finishes 0 ∧
    (⟨3, 2, 0, 0⟩ : Config).Unlimited ∧
    (∃ b, (Bound.compute openDiamond 0 (some 9)).result = .ok b ∧ b.label ≠ .relaxed) ∧
    ∃ t, (Search.start 0 ⟨3, 2, 0, 0⟩).minimize openDiamond (fun _ _ => 0) 2 = (t, .ok .exhausted) ∧
      t.nodes + t.fails = 1 := by
  have hunmerged : openDiamond.Unmerged 0 := ⟨⟨_, rfl⟩, ⟨_, rfl⟩⟩
  have hfinishes : openDiamond.Finishes 0 := by
    refine ⟨fun n t h => (steps_openDiamond h).1, fun n t h => expand_openDiamond h,
      _, rfl, fun d hd hints counts e he dual best => ?_⟩
    cases hd
    obtain ⟨hunbounded, -, hlevels⟩ := he.unbounded
    exact hunbounded.advance_total fun t ht =>
      expand_openDiamond (Space.steps_of_levels hlevels ht) dual best
  obtain ⟨hlabel, hsearch⟩ := hunmerged.closes_gap
  obtain ⟨hbounds, hminimize⟩ := hsearch hfinishes
  obtain ⟨b, hb⟩ := hbounds (some 9)
  obtain ⟨-, -, -, t, -, -, -, -, hmin⟩ := hminimize ⟨3, 2, 0, 0⟩ ⟨rfl, rfl⟩ fun _ _ => 0
  exact ⟨hunmerged, hfinishes, ⟨rfl, rfl⟩, ⟨b, hb, hlabel _ b hb⟩, _, hmin 2 (Nat.le_refl 2)⟩

end Table

end Fathom
