import Fathom.Proofs.Life
import Fathom.Proofs.Moves

/-!
# The incumbent over the life of a search

Whatever the inference and relaxation diagrams of a domain are worth, the incumbent is a genuine
solution, and each new one is cheaper than the one before. `Search.Honest` is what every move keeps:
pending states and the incumbent lie below the root, the incumbent is the primal of the newest
report that claims no optimality, and the costs of these primals go down. Once optimality has been
claimed the queue is empty, so that no further node is bounded (`Persists`).

Results:
* `Honest.move`, `Honest.moves`: one move keeps a search honest, and so do any number of them;
* `Call.moves`: a call of an honest search is made of moves;
* `incumbent_improves`: what this means for the calls of a search.
-/

namespace Fathom

namespace Search

open Relation (ReflTransGen)

variable {σ δ : Type} {D : Domain σ δ} {root : σ} {s s' s'' t : Search σ δ}

/-! ## Reports -/

/-- The reports that claim no optimality, oldest first. -/
def improvements (s : Search σ δ) : List (Report σ δ) := s.reports.filter fun r => !r.optimal

theorem reports_report (s : Search σ δ) (b : Bound σ δ) :
    (s.report b).reports = s.reports ++ [⟨b, s.nodes, s.fails, s.optimal⟩] := by
  simp [reports, report]

theorem reports_announce (s : Search σ δ) (lines : List String) :
    { s with journal := lines.map Event.announced ++ s.journal }.reports = s.reports := by
  simp [reports, List.filterMap_append, List.filterMap_map]

theorem improvements_report_of_open (b : Bound σ δ) (h : s.optimal = false) :
    (s.report b).improvements = s.improvements ++ [⟨b, s.nodes, s.fails, false⟩] := by
  rw [improvements, reports_report, List.filter_append, improvements, h]
  rfl

theorem improvements_report_of_optimal (b : Bound σ δ) (h : s.optimal = true) :
    (s.report b).improvements = s.improvements := by
  rw [improvements, reports_report, List.filter_append, improvements, h]
  exact List.append_nil _

/-! ## What every move keeps -/

/-- **An honest search.** -/
structure Honest (D : Domain σ δ) (root : σ) (s : Search σ δ) : Prop where
  full : s.queue.Full
  waiting : ∀ node ∈ s.queue.toList, D.Below root node.state
  incumbent : ∀ p, s.incumbent = some p → D.solved p = true ∧ D.Below root p
  /-- The incumbent is the primal of the newest improvement. -/
  newest : s.incumbent = s.improvements.getLast?.map fun r => r.bound.primal
  decreasing : s.improvements.Pairwise fun r r' => D.cost r'.bound.primal < D.cost r.bound.primal
  sound : ∀ r ∈ s.improvements, D.solved r.bound.primal = true ∧ r.bound.label ≠ .failed
  /-- Optimality is claimed only when no node is left. -/
  exhausted : s.optimal = true → s.queue.isEmpty = true

theorem honest_start (D : Domain σ δ) (root : σ) (config : Config) :
    Honest D root (start root config) where
  full := Queue.full_ofRoot root
  waiting node hnode := by
    rw [start, Queue.toList_ofRoot, List.mem_singleton] at hnode
    rw [hnode]
    exact .refl root
  incumbent _ hp := by cases hp
  newest := rfl
  decreasing := .nil
  sound _ hr := by cases hr
  exhausted h := by cases h

/-- A search stays honest if its queue, its incumbent and its improvements stay. -/
theorem Honest.congr (h : Honest D root s) (hqueue : s'.queue = s.queue)
    (hincumbent : s'.incumbent = s.incumbent) (himprovements : s'.improvements = s.improvements)
    (hexhausted : s'.optimal = true → s'.queue.isEmpty = true) : Honest D root s' := by
  constructor
  · rw [hqueue]
    exact h.full
  · rw [hqueue]
    exact h.waiting
  · rw [hincumbent]
    exact h.incumbent
  · rw [hincumbent, himprovements]
    exact h.newest
  · rw [himprovements]
    exact h.decreasing
  · rw [himprovements]
    exact h.sound
  · exact hexhausted

/-- An improvement is cheaper than all improvements before. -/
theorem Honest.cost_lt (h : Honest D root s) {b : Bound σ δ}
    (hb : Cost.beats (s.best D) (D.cost b.primal) = true) :
    ∀ r ∈ s.improvements, D.cost b.primal < D.cost r.bound.primal := by
  intro r hr
  obtain ⟨older, last, hlast⟩ := s.improvements.eq_nil_or_concat'.resolve_left
    (List.ne_nil_of_mem hr)
  have hnewest := h.newest
  rw [hlast, List.getLast?_concat, Option.map_some] at hnewest
  rw [best, hnewest, Option.map_some, Cost.beats_some, decide_eq_true_eq] at hb
  have hdecreasing := h.decreasing
  rw [hlast, List.pairwise_append] at hdecreasing
  rw [hlast, List.mem_append, List.mem_singleton] at hr
  obtain hr | rfl := hr
  · exact Int.lt_trans hb (hdecreasing.2.2 r hr last (List.mem_singleton.mpr rfl))
  · exact hb

/-- **A new incumbent keeps a search honest.** -/
theorem Honest.improve (h : Honest D root s) (hopen : s.optimal = false) {b : Bound σ δ}
    {nodes : Nat} (hbetter : b.isBetterThan D (s.best D) = true) (hbelow : D.Below root b.primal) :
    Honest D root ({ s with nodes, incumbent := some b.primal }.report b) := by
  obtain ⟨hlabel, hsolved, hbeats⟩ := isBetterThan_iff.mp hbetter
  have himprovements : ({ s with nodes, incumbent := some b.primal }.report b).improvements =
      s.improvements ++ [⟨b, nodes, s.fails, false⟩] := improvements_report_of_open b hopen
  constructor
  · exact h.full
  · exact h.waiting
  · rintro p ⟨⟩
    exact ⟨hsolved, hbelow⟩
  · rw [himprovements, List.getLast?_concat]
    rfl
  · rw [himprovements]
    refine List.pairwise_append.mpr
      ⟨h.decreasing, List.pairwise_singleton _ _, fun r hr r' hr' => ?_⟩
    rw [List.mem_singleton.mp hr']
    exact h.cost_lt hbeats r hr
  · rw [himprovements]
    intro r hr
    obtain hr | hr := List.mem_append.mp hr
    · exact h.sound r hr
    · rw [List.mem_singleton.mp hr]
      exact ⟨hsolved, hlabel⟩
  · exact fun ho => absurd ho (hopen ▸ Bool.false_ne_true)

/-- **Every move keeps a search honest.** -/
theorem Honest.move (hD : D.Genuine root) (h : Honest D root s) (hm : Move D root s s') :
    Honest D root s' := by
  cases hm with
  | tune config => exact h.congr rfl rfl rfl h.exhausted
  | enter => exact h.congr rfl rfl rfl h.exhausted
  | pop hpop =>
    refine ⟨h.full.pop hpop, fun node hnode => h.waiting node ?_, h.incumbent, h.newest,
      h.decreasing, h.sound, fun ho => ?_⟩
    · rw [Queue.toList_of_pop hpop]
      exact List.mem_cons_of_mem _ hnode
    · rw [Queue.pop_of_isEmpty h.full (h.exhausted ho)] at hpop
      cases hpop
  | announce lines =>
    refine h.congr rfl rfl ?_ h.exhausted
    rw [improvements, reports_announce, improvements]
  | @account b hopen hb =>
    obtain ⟨-, he⟩ | ⟨hbetter, he⟩ | ⟨-, -, he⟩ := account_cases D s b
    · rw [he]
      exact h.congr rfl rfl rfl h.exhausted
    · rw [he]
      exact h.improve hopen hbetter (Bound.primal_below hD hb (isBetterThan_iff.mp hbetter).1)
    · rw [he]
      exact h.congr rfl rfl rfl h.exhausted
  | extend hopen hnodes =>
    refine ⟨h.full.extend _ _, fun node hnode => ?_, h.incumbent, h.newest, h.decreasing, h.sound,
      fun ho => absurd ho (hopen ▸ Bool.false_ne_true)⟩
    rw [Queue.toList_extend, List.mem_append] at hnode
    exact hnode.elim (fun hnode => hnodes node (Queue.mem_sorted.mp hnode).1) (h.waiting node)
  | conclude hempty =>
    unfold conclude
    split
    · exact h
    · exact h.congr rfl rfl (improvements_report_of_optimal _ rfl) fun _ => hempty

theorem Honest.moves (hD : D.Genuine root) (h : Honest D root s) (hm : Moves D root s s') :
    Honest D root s' := by
  induction hm with
  | refl => exact h
  | tail _ hm ih => exact ih.move hD hm

/-! ## What is never taken back -/

/-- The counters have not gone down, and since optimality was claimed nothing has changed that
matters to the claim. -/
structure Persists (s s' : Search σ δ) : Prop where
  nodes : s.nodes ≤ s'.nodes
  fails : s.fails ≤ s'.fails
  optimal : s.optimal = true →
    s'.optimal = true ∧ s'.incumbent = s.incumbent ∧ s'.nodes = s.nodes ∧ s'.fails = s.fails

namespace Persists

/-- Nothing that matters has changed. -/
theorem congr (hnodes : s'.nodes = s.nodes) (hfails : s'.fails = s.fails)
    (hincumbent : s'.incumbent = s.incumbent) (hoptimal : s.optimal = true → s'.optimal = true) :
    Persists s s' :=
  ⟨hnodes ▸ Nat.le_refl _, hfails ▸ Nat.le_refl _,
    fun h => ⟨hoptimal h, hincumbent, hnodes, hfails⟩⟩

theorem refl (s : Search σ δ) : Persists s s := congr rfl rfl rfl id

theorem trans (h : Persists s s') (h' : Persists s' s'') : Persists s s'' where
  nodes := Nat.le_trans h.nodes h'.nodes
  fails := Nat.le_trans h.fails h'.fails
  optimal ho := by
    obtain ⟨ho', hincumbent, hnodes, hfails⟩ := h.optimal ho
    obtain ⟨ho'', hincumbent', hnodes', hfails'⟩ := h'.optimal ho'
    exact ⟨ho'', hincumbent'.trans hincumbent, hnodes'.trans hnodes, hfails'.trans hfails⟩

/-- As long as optimality has not been claimed, the counters may go up. -/
theorem of_open (ho : s.optimal = false) (hnodes : s.nodes ≤ s'.nodes)
    (hfails : s.fails ≤ s'.fails) : Persists s s' :=
  ⟨hnodes, hfails, fun h => absurd h (ho ▸ Bool.false_ne_true)⟩

end Persists

theorem Honest.persists_of_move (h : Honest D root s) (hm : Move D root s s') : Persists s s' := by
  cases hm with
  | tune config => exact .congr rfl rfl rfl id
  | enter => exact .congr rfl rfl rfl id
  | pop hpop =>
    refine .of_open (Bool.eq_false_iff.mpr fun ho => ?_) (Nat.le_refl _) (Nat.le_add_right ..)
    rw [Queue.pop_of_isEmpty h.full (h.exhausted ho)] at hpop
    cases hpop
  | announce lines => exact .congr rfl rfl rfl id
  | @account b hopen _ =>
    obtain ⟨-, he⟩ | ⟨-, he⟩ | ⟨-, -, he⟩ := account_cases D s b
    · rw [he]
      exact .of_open hopen (Nat.le_refl _) (Nat.le_succ _)
    · rw [he]
      exact .of_open hopen (Nat.le_succ _) (Nat.le_refl _)
    · rw [he]
      exact .of_open hopen (Nat.le_succ _) (Nat.le_refl _)
  | extend hopen _ => exact .of_open hopen (Nat.le_refl _) (Nat.le_refl _)
  | conclude _ =>
    unfold conclude
    split
    · exact .refl s
    · exact .congr rfl rfl rfl fun _ => rfl

theorem Honest.persists (hD : D.Genuine root) (h : Honest D root s) (hm : Moves D root s s') :
    Persists s s' := by
  induction hm with
  | refl => exact .refl s
  | tail hs hm ih => exact ih.trans ((h.moves hD hs).persists_of_move hm)

/-! ## Moments -/

/-- A move makes one report at most. -/
theorem Move.reports (hm : Move D root s s') :
    s'.reports = s.reports ∨ ∃ r, s'.reports = s.reports ++ [r] := by
  cases hm with
  | tune config => exact .inl rfl
  | enter => exact .inl rfl
  | pop _ => exact .inl rfl
  | announce lines => exact .inl (reports_announce s lines)
  | @account b _ _ =>
    obtain ⟨-, he⟩ | ⟨-, he⟩ | ⟨-, -, he⟩ := account_cases D s b
    · rw [he]
      exact .inl rfl
    · rw [he]
      exact .inr ⟨_, reports_report _ b⟩
    · rw [he]
      exact .inl rfl
  | extend _ _ => exact .inl rfl
  | conclude _ =>
    unfold Search.conclude
    split
    · exact .inl rfl
    · exact .inr ⟨_, reports_report _ _⟩

/-- **Every report is made at some moment.** -/
theorem exists_moment (hs : s.reports = []) (hm : Moves D root s s')
    {before after : List (Report σ δ)} {r : Report σ δ} (hr : s'.reports = before ++ r :: after) :
    ∃ t, Moves D root s t ∧ Moves D root t s' ∧ t.reports = before ++ [r] := by
  induction hm generalizing after with
  | refl =>
    rw [hs] at hr
    exact absurd hr.symm (by simp)
  | @tail u v hu hv ih =>
    obtain he | ⟨r', he⟩ := hv.reports
    · obtain ⟨t, ht, htu, hreports⟩ := ih (he ▸ hr)
      exact ⟨t, ht, htu.tail hv, hreports⟩
    · obtain rfl | ⟨after, last, rfl⟩ := after.eq_nil_or_concat'
      · exact ⟨v, hu.tail hv, .refl, hr⟩
      · -- the last report is the new one
        rw [he, ← List.cons_append, ← List.append_assoc] at hr
        obtain ⟨t, ht, htu, hreports⟩ := ih (List.append_inj_left' hr rfl)
        exact ⟨t, ht, htu.tail hv, hreports⟩

/-- **At the moment of a report** that claims no optimality, its primal is the incumbent. -/
theorem Honest.incumbent_eq (h : Honest D root t) {before : List (Report σ δ)} {r : Report σ δ}
    (hr : t.reports = before ++ [r]) (hopen : r.optimal = false) :
    t.incumbent = some r.bound.primal := by
  have hlast : t.improvements = before.filter (fun r => !r.optimal) ++ [r] := by
    rw [improvements, hr, List.filter_append, List.filter_singleton, hopen]
    rfl
  rw [h.newest, hlast, List.getLast?_concat, Option.map_some]

/-! ## Calls -/

/-- What may be done with a search from outside: it is tuned, or it is run by any clock for any
number of rounds. -/
inductive Call (D : Domain σ δ) : Search σ δ → Search σ δ → Prop
  | batchSize {s : Search σ δ} (n : Nat) : Call D s { s with config := s.config.withBatchSize n }
  | workers {s : Search σ δ} (n : Nat) : Call D s { s with config := s.config.withWorkers n }
  | maxMillis {s : Search σ δ} (n : Nat) : Call D s { s with config := s.config.withMaxMillis n }
  | maxNodes {s : Search σ δ} (n : Nat) : Call D s { s with config := s.config.withMaxNodes n }
  | minimize {s : Search σ δ} (clock : Nat → Nat → Nat) (fuel : Nat) :
      Call D s (s.minimize D clock fuel).1

/-- Any number of calls. -/
abbrev Calls (D : Domain σ δ) : Search σ δ → Search σ δ → Prop := ReflTransGen (Call D)

/-- **A call of `minimize` is made of moves**, also if it ends with a fault. -/
theorem Honest.minimize_moves (hD : D.Genuine root) (h : Honest D root s) (clock : Nat → Nat → Nat)
    (fuel : Nat) : Moves D root s (s.minimize D clock fuel).1 := by
  induction fuel generalizing s with
  | zero => exact .refl
  | succ fuel ih =>
    rw [minimize]
    split
    · rename_i hempty
      exact .single (.conclude hempty)
    · rename_i hne
      have hopen : s.optimal = false := Bool.eq_false_iff.mpr fun ho => hne (h.exhausted ho)
      have hround := (round_proceeds (D := D) (clock s.rounds) hopen h.waiting).moves
      revert hround
      obtain ⟨s₁, _ | stopped⟩ := s.round D (clock s.rounds)
      · exact id
      · intro hround
        cases stopped with
        | true => exact hround
        | false => exact hround.trans (ih (h.moves hD hround))

theorem Call.moves (hD : D.Genuine root) (h : Honest D root s) (hc : Call D s s') :
    Moves D root s s' := by
  cases hc with
  | batchSize n => exact .single (.tune _)
  | workers n => exact .single (.tune _)
  | maxMillis n => exact .single (.tune _)
  | maxNodes n => exact .single (.tune _)
  | minimize clock fuel => exact h.minimize_moves hD clock fuel

theorem Honest.calls_moves (hD : D.Genuine root) (h : Honest D root s) (hc : Calls D s s') :
    Moves D root s s' := by
  induction hc with
  | refl => exact .refl
  | tail _ hc ih => exact ih.trans (hc.moves hD (h.moves hD ih))

/-- **The incumbent is a genuine solution, and only improves.** Over the whole life of a search,
that is, any calls of `minimize` and tunings between them, and whatever the inference and relaxation
diagrams are: an incumbent is a solution below the root. The costs of the primals that are reported
without a claim of optimality go strictly down; each of them is solved, is not that of a failed
bound, and is the incumbent at the moment when it is reported. The counters never go down, and once
optimality is claimed, neither they nor the incumbent change any more. -/
theorem incumbent_improves (hD : D.Genuine root) (config : Config)
    (hs : Calls D (start root config) s) :
    (∀ p, s.incumbent = some p → D.solved p = true ∧ D.Below root p) ∧
    (s.improvements.Pairwise fun r r' => D.cost r'.bound.primal < D.cost r.bound.primal) ∧
    (∀ before r after, s.reports = before ++ r :: after → r.optimal = false →
      D.solved r.bound.primal = true ∧ r.bound.label ≠ .failed ∧
      (∃ t, Moves D root (start root config) t ∧ Moves D root t s ∧ t.reports = before ++ [r]) ∧
      ∀ t, Moves D root (start root config) t → Moves D root t s → t.reports = before ++ [r] →
        t.incumbent = some r.bound.primal) ∧
    (∀ t, Moves D root (start root config) t → Moves D root t s → Persists t s) ∧
    ∀ s', Calls D s s' → Moves D root s s' ∧ Persists s s' := by
  have hstart := honest_start D root config
  have hmoves := hstart.calls_moves hD hs
  have h := hstart.moves hD hmoves
  refine ⟨h.incumbent, h.decreasing, fun before r after hr hopen => ?_,
    fun t ht hts => (hstart.moves hD ht).persists hD hts, fun s' hs' => ?_⟩
  · have hmem : r ∈ s.improvements := by
      refine List.mem_filter.mpr ⟨?_, by rw [hopen]; rfl⟩
      rw [hr]
      exact List.mem_append_right _ List.mem_cons_self
    exact ⟨(h.sound r hmem).1, (h.sound r hmem).2, exists_moment rfl hmoves hr,
      fun t ht _ hreports => (hstart.moves hD ht).incumbent_eq hreports hopen⟩
  · have hmoves' := h.calls_moves hD hs'
    exact ⟨hmoves', h.persists hD hmoves'⟩

end Search

namespace Table

/-- The restrictions of a plain table are genuine. -/
theorem genuine_plain {width height root : Nat} {rows : List PlainRow} :
    ((plain width rows).domain height).Genuine root := by
  have hrestrict : ∀ {t d}, ((plain width rows).domain height).restrict t = .ok (some d) →
      d = Diagram.root t [Merger.cheapest ((plain width rows).domain height).cost] width := by
    intro t d hd
    cases hrow : rows[t]? with
    | none =>
      have hstate : (plain width rows).state t = .error .outOfBounds := by
        simp [state, plain, hrow]
      change diagram _ _ _ t = _ at hd
      rw [diagram, hstate] at hd
      cases hd
    | some row =>
      rw [(diagram_plain hrow).2.2, Except.ok.injEq, Option.some.injEq] at hd
      exact hd.symm
  refine ⟨fun _ hd => ?_, fun _ hd merge hmerge => ?_⟩
  · rw [hrestrict hd]
    rfl
  · rw [hrestrict hd] at hmerge
    rw [List.mem_singleton.mp hmerge]
    exact Merger.selective_cheapest _

/-- The search of the detour keeps its last incumbent, a solution below the root. -/
theorem detour_improves : detour.Genuine 0 ∧
    Search.Calls detour (Search.start 0 ⟨1, 1, 0, 1⟩) (detourCalls 4) ∧
    detour.solved 3 = true ∧ detour.Below 0 3 ∧
    ∀ s', Search.Calls detour (detourCalls 4) s' → s'.incumbent = some 3 := by
  have hcall : ∀ n, Search.Call detour (detourCalls n) (detourCalls (n + 1)) := fun n =>
    .minimize (fun _ _ => 0) 2
  have hcalls : Search.Calls detour (Search.start 0 ⟨1, 1, 0, 1⟩) (detourCalls 4) :=
    ((((Relation.ReflTransGen.single (hcall 0)).tail (hcall 1)).tail (hcall 2)).tail (hcall 3))
  have hincumbent : (detourCalls 4).incumbent = some 3 := by cbv
  have hoptimal : (detourCalls 4).optimal = true := by cbv
  obtain ⟨hsolution, -, -, -, hlater⟩ :=
    Search.incumbent_improves (genuine_plain : detour.Genuine 0) ⟨1, 1, 0, 1⟩ hcalls
  exact ⟨genuine_plain, hcalls, (hsolution 3 hincumbent).1, (hsolution 3 hincumbent).2,
    fun s' hs' => ((hlater s' hs').2.optimal hoptimal).2.1.trans hincumbent⟩

end Table

end Fathom
