import Fathom.Proofs.Rounds

/-!
# Whole searches

`Search.minimize` repeats rounds. Each of them keeps `Covered` and counts the ranks of the pending
states down in the multiset order, so that a search over a domain that answers comes to its end,
whatever its tuning and its clock (`Covered.minimize_total`). What it has lost on the way is
`lostIn`: without budgets nothing, otherwise the states whose bounds were not collected in the round
that was cut off.

Results:
* `Covered.minimize`: what is known when a call of `minimize` returns;
* `Covered.minimize_total`: it does return;
* `lostIn_of_exhausted`: a call that is not cut off loses nothing;
* `Covered.least`: when the queue is empty, only the states that were lost may improve;
* `minimize_unlimited`: without budgets, a search ends with a solution that no offer beats.
-/

namespace Fathom

namespace Search

variable {σ δ : Type} {D : Domain σ δ} {s s' : Search σ δ} {explored : σ → Prop}
  {offers : σ → Int → Prop} {rank : σ → Nat} {root : σ} {pending : List σ}

/-- What holds of a search between any two calls. -/
structure WellFormed (s : Search σ δ) : Prop where
  full : s.queue.Full
  workers : 0 < s.config.workers
  batchSize : 0 < s.config.batchSize
  /-- An optimum is claimed only once no node is left, and of an incumbent. -/
  optimal : s.optimal = true → s.queue.toList = [] ∧ ∃ p, s.incumbent = some p

theorem wellFormed_start (root : σ) (config : Config) :
    WellFormed (start root config : Search σ δ) where
  full := Queue.full_ofRoot root
  workers := Nat.le_max_left ..
  batchSize := Nat.le_max_left ..
  optimal h := by cases h

theorem WellFormed.tune (h : WellFormed s) {config : Config} (hworkers : 0 < config.workers)
    (hbatch : 0 < config.batchSize) : WellFormed { s with config } :=
  ⟨h.full, hworkers, hbatch, h.optimal⟩

/-- A search that has not begun has all its solutions below its root. -/
theorem covered_start (config : Config) (hroot : explored root) :
    Covered D explored offers root (start root config)
      ((start root config : Search σ δ).waiting) where
  incumbent _ h := by cases h
  explored t ht := by
    rw [List.mem_singleton.mp ht]
    exact hroot
  covers c hc _ := ⟨root, List.mem_singleton.mpr rfl, hc⟩

/-- **With no node left, only lost states may improve on the incumbent.** -/
theorem Covered.least (h : Covered D explored offers root s (s.waiting ++ pending))
    (hempty : s.queue.toList = []) {c : Int} (hc : offers root c)
    (hb : Cost.beats (s.best D) c = true) : ∃ t ∈ pending, offers t c := by
  rw [waiting, hempty] at h
  exact h.covers c hc hb

/-! ## One call -/

/-- The states that a call of `minimize` takes off the queue and loses. -/
def lostIn (D : Domain σ δ) (clock : Nat → Nat → Nat) : Nat → Search σ δ → List σ
  | 0, _ => []
  | fuel + 1, s =>
    if s.queue.isEmpty then []
    else
      match s.round D (clock s.rounds) with
      | (s', .ok false) => lostIn D clock fuel s'
      | (_, .ok true) => s.lost D (clock s.rounds)
      | (_, .error _) => []

theorem minimize_of_empty {clock : Nat → Nat → Nat} {fuel : Nat} (h : s.queue.isEmpty = true) :
    s.minimize D clock (fuel + 1) = (s.conclude, .ok .exhausted) := if_pos h

theorem minimize_of_round {clock : Nat → Nat → Nat} {fuel : Nat} {stopped : Bool}
    (h : s.queue.isEmpty = false) (hround : s.round D (clock s.rounds) = (s', .ok stopped)) :
    s.minimize D clock (fuel + 1) =
      if stopped then (s', .ok .cutOff) else s'.minimize D clock fuel := by
  rw [minimize, h, if_neg Bool.false_ne_true, hround]
  rfl

/-- **A call that is not cut off loses nothing.** -/
theorem lostIn_of_exhausted {clock : Nat → Nat → Nat} {fuel : Nat}
    (h : s.minimize D clock fuel = (s', .ok .exhausted)) : s.lostIn D clock fuel = [] := by
  induction fuel generalizing s with
  | zero => rfl
  | succ fuel ih =>
    rw [lostIn]
    cases hempty : s.queue.isEmpty with
    | true => exact if_pos rfl
    | false =>
      rw [if_neg Bool.false_ne_true]
      rw [minimize, hempty, if_neg Bool.false_ne_true] at h
      generalize s.round D (clock s.rounds) = outcome at h ⊢
      obtain ⟨s₁, e | stopped⟩ := outcome
      · rfl
      · cases stopped with
        | true => cases h
        | false => exact ih h

/-- More fuel keeps the answer. -/
theorem minimize_of_le {clock : Nat → Nat → Nat} {fuel fuel' : Nat} {ending : Ending}
    (h : s.minimize D clock fuel = (s', .ok ending)) (hle : fuel ≤ fuel') :
    s.minimize D clock fuel' = (s', .ok ending) := by
  induction fuel generalizing s fuel' with
  | zero => cases h
  | succ fuel ih =>
    have hpos : 1 ≤ fuel' := Nat.le_trans (Nat.le_add_left 1 fuel) hle
    obtain ⟨fuel', rfl⟩ := Nat.exists_eq_add_of_le' hpos
    rw [minimize] at h ⊢
    split
    · rename_i hempty
      rwa [if_pos hempty] at h
    · rename_i hempty
      rw [if_neg hempty] at h
      generalize s.round D (clock s.rounds) = outcome at h ⊢
      obtain ⟨s₁, e | stopped⟩ := outcome
      · cases h
      · cases stopped with
        | true => exact h
        | false => exact ih h (Nat.le_of_add_le_add_right hle)

theorem toList_ne_nil (h : s.queue.Full) (hempty : s.queue.isEmpty = false) :
    s.queue.toList ≠ [] := by
  intro hnil
  rw [(Queue.isEmpty_iff h).mpr hnil] at hempty
  cases hempty

theorem conclude_cases (s : Search σ δ) :
    s.conclude.queue = s.queue ∧ s.conclude.config = s.config ∧
      s.conclude.incumbent = s.incumbent ∧
      ((s.incumbent = none ∧ s.conclude.optimal = s.optimal) ∨
        ((∃ p, s.incumbent = some p) ∧ s.conclude.optimal = true)) := by
  unfold conclude
  split
  · rename_i h
    exact ⟨rfl, rfl, rfl, .inl ⟨h, rfl⟩⟩
  · rename_i p h
    exact ⟨rfl, rfl, rfl, .inr ⟨⟨p, h⟩, rfl⟩⟩

/-- An incumbent is claimed to be optimal once no node is left. -/
theorem WellFormed.conclude (h : WellFormed s) (hempty : s.queue.toList = []) :
    WellFormed s.conclude := by
  obtain ⟨hqueue, hconfig, hincumbent, hoptimal⟩ := conclude_cases s
  refine ⟨hqueue ▸ h.full, hconfig ▸ h.workers, hconfig ▸ h.batchSize, fun ho => ⟨?_, ?_⟩⟩
  · rw [hqueue, hempty]
  · rw [hincumbent]
    obtain ⟨-, hoptimal⟩ | ⟨hsome, -⟩ := hoptimal
    · exact (h.optimal (hoptimal ▸ ho)).2
    · exact hsome

/-- What is known when a call of `minimize` returns. -/
structure Minimized (D : Domain σ δ) (explored : σ → Prop) (offers : σ → Int → Prop) (root : σ)
    (s s' : Search σ δ) (ending : Ending) (pending : List σ) : Prop where
  wellFormed : WellFormed s'
  covered : Covered D explored offers root s' (s'.waiting ++ pending)
  /-- The queue has run empty, and an incumbent is claimed to be optimal. -/
  exhausted : ending = .exhausted → s'.queue.toList = [] ∧
    ∀ p, s'.incumbent = some p → s'.optimal = true
  /-- A search that is cut off makes no claim. -/
  claims : s'.optimal = true → ending = .exhausted
  unlimited : s.config.Unlimited → ending = .exhausted

/-- A round is over. -/
theorem Rounded.wellFormed (h : Rounded D explored offers rank root s s' pending)
    (hs : WellFormed s) (hne : s.queue.toList ≠ []) : WellFormed s' where
  full := h.full hs.full
  workers := h.config ▸ hs.workers
  batchSize := h.config ▸ hs.batchSize
  optimal ho := absurd (hs.optimal (h.optimal ▸ ho)).1 hne

/-- No node is left. -/
theorem Covered.conclude (hs : WellFormed s) (hempty : s.queue.toList = [])
    (h : Covered D explored offers root s (s.waiting ++ pending)) :
    Minimized D explored offers root s s.conclude .exhausted pending := by
  obtain ⟨hqueue, -, hincumbent, hoptimal⟩ := conclude_cases s
  have hnil : s.conclude.queue.toList = [] := by rw [hqueue, hempty]
  have hwaiting : s.conclude.waiting = s.waiting := by rw [waiting, hqueue, waiting]
  refine ⟨hs.conclude hempty, ?_, fun _ => ⟨hnil, fun p hp => ?_⟩, fun _ => rfl, fun _ => rfl⟩
  · rw [hwaiting]
    exact h.congr hincumbent
  · obtain ⟨hnone, -⟩ | ⟨-, hoptimal⟩ := hoptimal
    · rw [hincumbent, hnone] at hp
      cases hp
    · exact hoptimal

/-- **One call keeps what is known**, but for the states it loses. -/
theorem Covered.minimize (ht : D.Trusted explored offers) (ha : D.Answering explored rank)
    {clock : Nat → Nat → Nat} {fuel : Nat} {ending : Ending} (hs : WellFormed s)
    (h : Covered D explored offers root s (s.waiting ++ pending))
    (hmin : s.minimize D clock fuel = (s', .ok ending)) :
    Minimized D explored offers root s s' ending (s.lostIn D clock fuel ++ pending) := by
  induction fuel generalizing s with
  | zero => cases hmin
  | succ fuel ih =>
    cases hempty : s.queue.isEmpty with
    | true =>
      rw [minimize_of_empty hempty] at hmin
      cases hmin
      rw [lostIn, if_pos hempty]
      exact h.conclude hs ((Queue.isEmpty_iff hs.full).mp hempty)
    | false =>
      obtain ⟨stopped, s₁, hround, hlost, hunlimited, hr⟩ := h.round ht ha (clock s.rounds)
      have hne := toList_ne_nil hs.full hempty
      have hs₁ := hr.wellFormed hs hne
      rw [minimize_of_round hempty hround] at hmin
      rw [lostIn, hempty, if_neg Bool.false_ne_true, hround]
      cases stopped with
      | true =>
        rw [if_pos rfl] at hmin
        cases hmin
        refine ⟨hs₁, hr.covered, fun hf => (by cases hf), fun ho => ?_, fun hu => ?_⟩
        · exact absurd (hs.optimal (hr.optimal ▸ ho)).1 hne
        · cases hunlimited hu
      | false =>
        have hcovered := hr.covered
        rw [hlost rfl] at hcovered
        rw [if_neg Bool.false_ne_true] at hmin
        obtain ⟨hwf, hc, he, ho, hu⟩ := ih hs₁ hcovered hmin
        exact ⟨hwf, hc, he, ho, fun h => hu (hr.config ▸ h)⟩

/-- There is no endless descent of ranks. -/
theorem wellFounded_ranks :
    WellFounded fun fewer more : Multiset Nat => Multiset.IsDershowitzMannaLT fewer more :=
  Multiset.wellFounded_isDershowitzMannaLT

/-- **A call returns** if the rounds of all searches of a kind answer and count a measure down. -/
theorem minimize_total_of_rounds {ι : Type*} {r : ι → ι → Prop} (hr : WellFounded r)
    (measure : Search σ δ → ι) (kind : Search σ δ → Prop) {clock : Nat → Nat → Nat}
    (hround : ∀ s, kind s → s.queue.isEmpty = false →
      ∃ stopped s', s.round D (clock s.rounds) = (s', .ok stopped) ∧
        (stopped = false → kind s' ∧ r (measure s') (measure s)))
    (hs : kind s) : ∃ rounds, ∀ fuel, rounds ≤ fuel →
      ∃ s' ending, s.minimize D clock fuel = (s', .ok ending) := by
  induction hm : measure s using hr.induction generalizing s with
  | _ m ih =>
    cases hempty : s.queue.isEmpty with
    | true =>
      refine ⟨1, fun fuel hfuel => ?_⟩
      obtain ⟨fuel, rfl⟩ := Nat.exists_eq_add_of_le' hfuel
      exact ⟨_, _, minimize_of_empty hempty⟩
    | false =>
      obtain ⟨stopped, s₁, hround₁, hnext⟩ := hround s hs hempty
      cases stopped with
      | true =>
        refine ⟨1, fun fuel hfuel => ?_⟩
        obtain ⟨fuel, rfl⟩ := Nat.exists_eq_add_of_le' hfuel
        exact ⟨_, _, (minimize_of_round hempty hround₁).trans (if_pos rfl)⟩
      | false =>
        obtain ⟨hs₁, hlt⟩ := hnext rfl
        obtain ⟨rounds, hrounds⟩ := ih _ (hm ▸ hlt) hs₁ rfl
        refine ⟨rounds + 1, fun fuel hfuel => ?_⟩
        have hpos : 1 ≤ fuel := Nat.le_trans (Nat.le_add_left 1 rounds) hfuel
        obtain ⟨more, rfl⟩ := Nat.exists_eq_add_of_le' hpos
        obtain ⟨s', ending, hmin⟩ := hrounds more (Nat.le_of_add_le_add_right hfuel)
        refine ⟨s', ending, (minimize_of_round hempty hround₁).trans ?_⟩
        rw [if_neg Bool.false_ne_true, hmin]

/-- **Every call returns.** -/
theorem Covered.minimize_total (ht : D.Trusted explored offers) (ha : D.Answering explored rank)
    (clock : Nat → Nat → Nat) (hs : WellFormed s)
    (h : Covered D explored offers root s (s.waiting ++ pending)) :
    ∃ rounds, ∀ fuel, rounds ≤ fuel →
      ∃ s' ending, s.minimize D clock fuel = (s', .ok ending) := by
  refine minimize_total_of_rounds wellFounded_ranks (ranks rank)
    (fun s => WellFormed s ∧ ∃ pending, Covered D explored offers root s (s.waiting ++ pending))
    (fun s hs hempty => ?_) ⟨hs, pending, h⟩
  obtain ⟨hwf, pending, h⟩ := hs
  have hne := toList_ne_nil hwf.full hempty
  obtain ⟨stopped, s₁, hround, -, -, hr⟩ := h.round ht ha (clock s.rounds)
  exact ⟨stopped, s₁, hround, fun _ =>
    ⟨⟨hr.wellFormed hwf hne, _, hr.covered⟩, hr.ranks hwf.full hne hwf.workers hwf.batchSize⟩⟩

/-! ## Searches without budgets -/

/-- **Without budgets a search ends**, with a solution that no offer of the root beats and that it
claims to be optimal, or with none and no claim because nothing is offered. -/
theorem minimize_unlimited (ht : D.Trusted explored offers) (ha : D.Answering explored rank)
    (hroot : explored root) (config : Config) (hconfig : config.Unlimited)
    (clock : Nat → Nat → Nat) : ∃ rounds, ∀ fuel, rounds ≤ fuel → ∃ s : Search σ δ,
      (start root config).minimize D clock fuel = (s, .ok .exhausted) ∧
      (∀ p, s.incumbent = some p → s.optimal = true ∧ explored p ∧ D.solved p = true ∧
        ∀ c, offers root c → D.cost p ≤ c) ∧
      (s.incumbent = none → s.optimal = false ∧ ∀ c, ¬offers root c) := by
  have hstart : Covered D explored offers root (start root config)
      ((start root config : Search σ δ).waiting ++ []) := by
    rw [List.append_nil]
    exact covered_start config hroot
  have hwf : WellFormed (start root config : Search σ δ) := wellFormed_start root config
  obtain ⟨rounds, hrounds⟩ := hstart.minimize_total ht ha clock hwf
  refine ⟨rounds, fun fuel hfuel => ?_⟩
  obtain ⟨s, ending, hmin⟩ := hrounds fuel hfuel
  have hm := hstart.minimize ht ha hwf hmin
  obtain rfl : ending = .exhausted := hm.unlimited hconfig
  obtain ⟨hempty, hclaims⟩ := hm.exhausted rfl
  have hcovered := hm.covered
  rw [lostIn_of_exhausted hmin] at hcovered
  have hleast : ∀ c, offers root c → Cost.beats (s.best D) c = false := by
    intro c hc
    refine Bool.eq_false_iff.mpr fun hb => ?_
    obtain ⟨t, hlost, -⟩ := hcovered.least hempty hc hb
    cases hlost
  refine ⟨s, hmin, fun p hp => ?_, fun hnone => ⟨?_, fun c hc => ?_⟩⟩
  · obtain ⟨hexplored, hsolved⟩ := hcovered.incumbent p hp
    refine ⟨hclaims p hp, hexplored, hsolved, fun c hc => ?_⟩
    have hno := hleast c hc
    rw [best, hp, Option.map_some, Cost.beats_some, decide_eq_false_iff_not] at hno
    exact Int.not_lt.mp hno
  · refine Bool.eq_false_iff.mpr fun hoptimal => ?_
    obtain ⟨-, p, hp⟩ := hm.wellFormed.optimal hoptimal
    rw [hnone] at hp
    cases hp
  · have hno := hleast c hc
    rw [best, hnone] at hno
    cases hno

end Search

end Fathom
