import Mathlib.Data.List.Permutation
import Fathom.Proofs.PlainTable

/-!
# Labels under the bare contract

The contract of a state does not say at which depth solutions lie: a layer may hold solved states
beside unsolved ones, and a solved state has no successor in the layers that follow. `Contract` is
what is asked of a state then. It leaves inference out, and allows for a relaxation that is
unbounded. Neither the sign of costs nor the successors of solved states matter for what follows.

After `n` rounds the lockstep has read `n` layers. Each of the layers that it has not read yet is
accounted for: what improves and lies there is below a state of the relaxation, and of an exact
restriction, at hand (`Complete`). What improves and lies in a layer that was read is not, unless it
is the best state of the last one. So a label can be relied on exactly as far as the layers read
hold nothing better.

Results:
* `Contract.labels_iff`: a bound is computed, and its label is right exactly if it is right about
  the solutions that lie fewer steps below than layers were read.
-/

namespace Fathom

variable {σ δ : Type}

/-- **The contract of a state `s`** whose tree is finite, without inference. -/
structure Contract (D : Domain σ δ) (s : σ) : Prop where
  answers : ∀ {n t} best, Steps D.Precedes n s t → ∃ next, D.expand t none best = .ok next
  /-- Costs never decrease along an expansion. -/
  mono : ∀ {n t u}, Steps D.Precedes n s t → D.Precedes t u → D.cost t ≤ D.cost u
  /-- Only successors that do not improve on the incumbent are omitted. -/
  omits : ∀ {n t u best next}, Steps D.Precedes n s t → D.expand t none best = .ok next →
    D.Precedes t u → u ∉ next → Cost.beats best (D.cost u) = false
  adds : ∀ {n t u best next}, Steps D.Precedes n s t → D.expand t none best = .ok next →
    u ∈ next → D.Precedes t u
  infer : D.infer s = .ok none
  relax : D.relax s = .ok none ∨ ∃ mergers, D.relax s = .ok (some (Diagram.root s mergers 0))
  restrict : ∃ width, D.restrict s = .ok (some (Diagram.root s [Merger.cheapest D.cost] width))
  /-- The tree is no higher than the domain allows. -/
  finite : ∀ {n t}, Steps D.Precedes n s t → n < D.height

namespace Contract

variable {D : Domain σ δ} {best : Option Int} {s t x : σ} {n k : Nat} {L L' : Lockstep σ δ}
  {states states' : List σ}

/-- Whatever improves on the incumbent and lies at least `n` steps below `s` lies below one of the
states. -/
def Complete (D : Domain σ δ) (best : Option Int) (s : σ) (n : Nat) (states : List σ) : Prop :=
  ∀ k x, Steps D.Precedes (n + k) s x → Cost.beats best (D.cost x) = true →
    ∃ t ∈ states, Steps D.Precedes k t x

/-- Costs never decrease on the way down. -/
theorem cost_le (h : Contract D s) (ht : Steps D.Precedes n s t) (hx : Steps D.Precedes k t x) :
    D.cost t ≤ D.cost x := by
  induction hx generalizing n with
  | refl => exact Int.le_refl _
  | head htu _ ih => exact Int.le_trans (h.mono ht htu) (ih (ht.tail htu))

theorem complete_root : Complete D best s 0 [s] := fun k x hx _ =>
  ⟨s, List.mem_singleton.mpr rfl, by rwa [Nat.zero_add] at hx⟩

/-- **Expanding all states loses nothing that improves.** -/
theorem Complete.step (h : Contract D s) (hreached : ∀ t ∈ states, Steps D.Precedes n s t)
    (hc : Complete D best s n states) (hall : ∀ t, D.Yields states none best t → t ∈ states') :
    Complete D best s (n + 1) states' := by
  intro k x hx hb
  obtain ⟨t, ht, hx⟩ := hc (k + 1) x (by rwa [← Nat.add_assoc, Nat.add_right_comm]) hb
  cases hx with
  | head htu hx =>
    rename_i u
    have hts := hreached t ht
    obtain ⟨next, hnext⟩ := h.answers best hts
    by_cases hu : u ∈ next
    · exact ⟨u, hall u ⟨t, ht, next, hnext, hu⟩, hx⟩
    · have hno := h.omits hts hnext htu hu
      rw [Cost.beats_of_le (h.cost_le (hts.tail htu) hx) hb] at hno
      cases hno

theorem steps_of_yields (h : Contract D s) (hreached : ∀ t ∈ states, Steps D.Precedes n s t)
    (ht : D.Yields states none best t) : Steps D.Precedes (n + 1) s t := by
  obtain ⟨u, hu, next, hnext, ht⟩ := ht
  exact (hreached u hu).tail (h.adds (hreached u hu) hnext ht)

/-- What is known of the lockstep of `s` after `n` rounds. -/
structure Holds (D : Domain σ δ) (best : Option Int) (s : σ) (n : Nat) (L : Lockstep σ δ) :
    Prop where
  infer : L.infer = none
  inferenceDual : L.inferenceDual = none
  restricts : L.restrict.Restricts D.cost
  reached : ∀ t ∈ L.restrict.layer.states, Steps D.Precedes n s t
  exact : L.restrict.layer.isExact = true → Complete D best s n L.restrict.layer.states
  relax : ∀ d, L.relax = some d → d.Unbounded ∧
    (∀ t ∈ d.layer.states, Steps D.Precedes n s t) ∧ Complete D best s n d.layer.states
  first : n = 0 → L.floor = D.cost s ∧ L.restrict.layer = Layer.root s
  /-- Each of the layers read improved on the incumbent. -/
  floor_beats : 0 < n → Cost.beats best L.floor = true
  /-- The floor is a lower bound of what improves and lies in the last layer read or below. -/
  floor_le : ∀ k x, Steps D.Precedes k s x → n ≤ k + 1 → Cost.beats best (D.cost x) = true →
    L.floor ≤ D.cost x

theorem Holds.start (h : Contract D s) (hs : Lockstep.start D s = .ok L) :
    Holds D best s 0 L := by
  obtain ⟨infer, relax, restrict, hi, hx, hd, rfl⟩ := Lockstep.start_eq_ok_iff.mp hs
  obtain ⟨width, hw⟩ := h.restrict
  rw [h.infer, Except.ok.injEq] at hi
  rw [hw, Except.ok.injEq, Option.some.injEq] at hd
  subst hi hd
  have hroot : ∀ t ∈ [s], Steps D.Precedes 0 s t := by
    intro t ht
    rw [List.mem_singleton.mp ht]
    exact .refl s
  refine ⟨rfl, rfl, rfl, hroot, fun _ => complete_root, fun d hd => ?_, fun _ => ⟨rfl, rfl⟩,
    fun hn => absurd hn (Nat.lt_irrefl 0),
    fun k x hx _ _ => h.cost_le (.refl s) hx⟩
  · obtain hnone | ⟨mergers, hsome⟩ := h.relax
    · rw [hnone, Except.ok.injEq] at hx
      rw [← hx] at hd
      cases hd
    · rw [hsome, Except.ok.injEq] at hx
      rw [← hx] at hd
      cases hd
      exact ⟨rfl, hroot, complete_root⟩

/-- No hint is passed on. -/
theorem Holds.note_inferenceDual (hL : Holds D best s n L) : (L.note D).inferenceDual = none := by
  rw [Lockstep.note_inferenceDual, Lockstep.noteInference, hL.infer]
  exact hL.inferenceDual

/-- Where the lockstep goes on, all that was read improves on the incumbent. -/
theorem Holds.beats_floor (hL : Holds D best s n L) (hv : L.verdict D best s = none) :
    Cost.beats best L.floor = true := by
  obtain ⟨-, -, -, p, hp, hbeats⟩ := Lockstep.verdict_eq_none hv
  rcases Nat.eq_zero_or_pos n with hn | hn
  · obtain ⟨hfloor, hlayer⟩ := hL.first hn
    rw [hlayer] at hp hbeats
    cases hp
    exact hfloor ▸ hbeats rfl
  · exact hL.floor_beats hn

/-- **One round keeps what is known.** -/
theorem Holds.step (h : Contract D s) (hL : Holds D best s n L)
    (hv : L.verdict D best s = none) (hadv : Lockstep.Advances D best (L.note D) L') :
    Holds D best s (n + 1) L' := by
  have hfloor := hL.beats_floor hv
  obtain ⟨-, hi, hx, -⟩ := Lockstep.verdict_eq_none hv
  have hdual := hL.note_inferenceDual
  have hrestrict := hadv.restrict
  rw [hdual, Lockstep.note_restrict] at hrestrict
  obtain ⟨hrestricts, hyields, hexact⟩ := hL.restricts.advance hrestrict
  refine ⟨hadv.infer_eq_none hL.infer, ?_, hrestricts,
    fun t ht => h.steps_of_yields hL.reached (hyields t ht), fun he => ?_, fun d' hd' => ?_,
    fun hn => by omega, fun _ => ?_, fun k x hk hn hb => ?_⟩
  · rw [hadv.inferenceDual, hdual]
  · obtain ⟨he, hall⟩ := hexact he
    exact (hL.exact he).step h hL.reached hall
  · obtain ⟨d, hd, hadvance⟩ := hadv.exists_relax hd'
    rw [hdual] at hadvance
    obtain ⟨hunbounded, hreached, hcomplete⟩ := hL.relax d hd
    obtain ⟨hunbounded', hmem⟩ := hunbounded.advance hadvance
    exact ⟨hunbounded', fun t ht => h.steps_of_yields hreached ((hmem t).mp ht),
      hcomplete.step h hreached fun t ht => (hmem t).mpr ht⟩
  · rw [hadv.floor]
    exact Lockstep.beats_note_floor hfloor hi hx
  · rw [hadv.floor]
    refine Lockstep.note_floor_le (hL.floor_le k x hk (by omega) hb) (fun d a hd _ => ?_)
      fun d a hd ha => ?_
    · rw [hL.infer] at hd
      cases hd
    · obtain ⟨-, hreached, hcomplete⟩ := hL.relax d hd
      obtain ⟨m, rfl⟩ := Nat.le.dest (Nat.le_of_succ_le_succ hn)
      obtain ⟨t, ht, htx⟩ := hcomplete m x hk hb
      exact Int.le_trans (Layer.cost_best_le ha t ht) (h.cost_le (hreached t ht) htx)

/-- **What is known holds along every run.** -/
theorem holds_of_run (h : Contract D s) (hrun : Lockstep.Run D best s n L) :
    Holds D best s n L := by
  induction hrun with
  | start hs => exact Holds.start h hs
  | step _ hv hadv ih => exact ih.step h hv hadv

/-- What improves lies in a layer that was read, if one at hand shows that it is not below. -/
theorem lt_of_not_beats (h : Contract D s) (hreached : ∀ t ∈ states, Steps D.Precedes n s t)
    (hc : Complete D best s n states) (hno : ∀ t ∈ states, Cost.beats best (D.cost t) = false)
    (hx : Steps D.Precedes k s x) (hb : Cost.beats best (D.cost x) = true) : k < n := by
  by_contra hle
  obtain ⟨m, rfl⟩ := Nat.le.dest (Nat.le_of_not_lt hle)
  obtain ⟨t, ht, hx⟩ := hc m x hx hb
  have := hno t ht
  rw [Cost.beats_of_le (h.cost_le (hreached t ht) hx) hb] at this
  cases this

/-- **What a failed label overlooks lies in a layer that was read.** -/
theorem lt_of_failed (h : Contract D s) (hrun : Lockstep.Run D best s n L) {b : Bound σ δ}
    (hv : L.verdict D best s = some b) (hl : b.label = .failed) (hx : Steps D.Precedes k s x)
    (hb : Cost.beats best (D.cost x) = true) : k < n := by
  have hL := h.holds_of_run hrun
  obtain ⟨hdone, rfl⟩ | ⟨hne, -, -, hi | hr | ⟨he, p, hp, hno⟩⟩ := Lockstep.verdict_eq_some hv
  · obtain ⟨-, -, ⟨-, -, hlabel⟩ | ⟨-, he, -⟩ | ⟨-, -, -, hlabel⟩⟩ := Lockstep.conclude_cases D L s
    · rw [hl] at hlabel
      split at hlabel <;> cases hlabel
    · refine h.lt_of_not_beats hL.reached (hL.exact he) (fun t ht => ?_) hx hb
      rw [hdone] at ht
      cases ht
    · rw [hl] at hlabel
      cases hlabel
  · rw [hL.infer] at hi
    cases hi
  · cases hd : L.relax with
    | none =>
      rw [hd] at hr
      cases hr
    | some d =>
      obtain ⟨-, hreached, hcomplete⟩ := hL.relax d hd
      rw [hd] at hr
      refine h.lt_of_not_beats hreached hcomplete (fun t ht => ?_) hx hb
      obtain ⟨a, ha⟩ := Lockstep.exists_best D.cost (List.ne_nil_of_mem ht)
      exact Lockstep.not_beats_of_best ha (Lockstep.closes_iff.mp hr a ha) t ht
  · exact h.lt_of_not_beats hL.reached (hL.exact he) (Lockstep.not_beats_of_best hp hno) hx hb

/-- **What an exact label overlooks lies in a layer that was read.** -/
theorem lt_of_exact (h : Contract D s) (hrun : Lockstep.Run D best s n L) {b : Bound σ δ}
    (hv : L.verdict D best s = some b) (hl : b.label = .exact) (hx : Steps D.Precedes k s x)
    (hlt : D.cost x < D.cost b.primal) : k < n := by
  have hL := h.holds_of_run hrun
  obtain ⟨hdone, rfl⟩ | ⟨-, -, hlabel, -⟩ := Lockstep.verdict_eq_some hv
  · obtain ⟨-, -, ⟨-, hp, hlabel⟩ | ⟨-, -, hlabel⟩ | ⟨-, -, -, hlabel⟩⟩ :=
      Lockstep.conclude_cases D L s
    · rw [hl] at hlabel
      split at hlabel
      · cases hlabel
      · rename_i hfloor
        rw [hp] at hlt
        have hn : 0 < n := Nat.pos_of_ne_zero fun hn => by
          rw [(hL.first hn).2] at hdone
          cases hdone
        have hb : Cost.beats best (D.cost x) = true :=
          Cost.beats_of_le (by omega) (hL.floor_beats hn)
        by_contra hle
        have := hL.floor_le k x hx (by omega) hb
        omega
    · rw [hl] at hlabel
      cases hlabel
    · rw [hl] at hlabel
      cases hlabel
  · rw [hl] at hlabel
    cases hlabel

/-- **Every state is bounded**, after no more rounds than its tree is high. -/
theorem exists_verdict (h : Contract D s) (best : Option Int) :
    ∃ n L b, Lockstep.Run D best s n L ∧ L.verdict D best s = some b ∧
      (Bound.compute D s best).result = .ok b := by
  obtain ⟨relax, hx⟩ : ∃ relax, D.relax s = .ok relax := by
    obtain hx | ⟨mergers, hx⟩ := h.relax
    · exact ⟨_, hx⟩
    · exact ⟨_, hx⟩
  obtain ⟨width, hd⟩ := h.restrict
  have hstart := Lockstep.start_eq_ok_iff.mpr ⟨none, relax, _, h.infer, hx, hd, rfl⟩
  refine Bound.compute_total best hstart fun n L hrun hv => ?_
  have hL := h.holds_of_run hrun
  obtain ⟨hne, -⟩ := Lockstep.verdict_eq_none hv
  obtain ⟨t, ht⟩ := List.exists_mem_of_ne_nil _ hne
  refine ⟨h.finite (hL.reached t ht), ?_⟩
  refine Lockstep.exists_advances (fun d hd => ?_) (fun d hd => ?_) ?_
  · rw [hL.infer] at hd
    cases hd
  · obtain ⟨hunbounded, hreached, -⟩ := hL.relax d hd
    rw [hL.note_inferenceDual]
    exact hunbounded.advance_total fun t ht => h.answers best (hreached t ht)
  · rw [hL.note_inferenceDual]
    exact hL.restricts.advance_total fun t ht => h.answers best (hL.reached t ht)

/-- **A label is right exactly if it is right about the layers that were read.** -/
theorem labels_iff (h : Contract D s) (best : Option Int) :
    ∃ n L b, Lockstep.Run D best s n L ∧ L.verdict D best s = some b ∧
      (Bound.compute D s best).result = .ok b ∧
      (b.label = .failed → ((∀ x, D.Solution s x → Cost.beats best (D.cost x) = false) ↔
        ∀ k x, k < n → Steps D.Precedes k s x → D.solved x = true →
          Cost.beats best (D.cost x) = false)) ∧
      (b.label = .exact → ((∀ x, D.Solution s x → D.cost b.primal ≤ D.cost x) ↔
        ∀ k x, k < n → Steps D.Precedes k s x → D.solved x = true →
          D.cost b.primal ≤ D.cost x)) := by
  obtain ⟨n, L, b, hrun, hv, hcompute⟩ := h.exists_verdict best
  refine ⟨n, L, b, hrun, hv, hcompute, fun hl => ?_, fun hl => ?_⟩
  · refine ⟨fun hall k x _ hk hx => hall x ⟨k, hk, hx⟩, fun hread x ⟨k, hk, hx⟩ => ?_⟩
    refine Bool.eq_false_iff.mpr fun hb => ?_
    have := hread k x (h.lt_of_failed hrun hv hl hk hb) hk hx
    rw [hb] at this
    cases this
  · refine ⟨fun hall k x _ hk hx => hall x ⟨k, hk, hx⟩, fun hread x ⟨k, hk, hx⟩ => ?_⟩
    refine Int.not_lt.mp fun hlt => ?_
    have := hread k x (h.lt_of_exact hrun hv hl hk hlt) hk hx
    omega

end Contract

/-! ## A solution that is overlooked -/

namespace Table

variable {rows : List PlainRow} {width height id : Nat} {row : PlainRow}

/-- Successors come after the state in the table and cost no less. -/
def IsSorted (rows : List PlainRow) : Bool :=
  (List.range rows.length).all fun id => rows[id]?.all fun row => row.2.2.all fun next =>
    decide (id < next) && rows[next]?.any fun row' => decide (row.1 ≤ row'.1)

theorem isSortedAt (h : IsSorted rows = true) (hrow : rows[id]? = some row) :
    ∀ next ∈ row.2.2, id < next ∧ ∃ row', rows[next]? = some row' ∧ row.1 ≤ row'.1 := by
  have hid : id < rows.length := (List.getElem?_eq_some_iff.mp hrow).1
  have hat := List.all_eq_true.mp h id (List.mem_range.mpr hid)
  rw [hrow] at hat
  simp only [Option.all_some, List.all_eq_true, Bool.and_eq_true, decide_eq_true_eq,
    Option.any_eq_true] at hat
  exact hat

theorem le_of_steps_plain (h : IsSorted rows = true) {s n t : Nat} (hs : s < rows.length)
    (ht : Steps ((plain width rows).domain height).Precedes n s t) :
    s + n ≤ t ∧ ∃ row, rows[t]? = some row := by
  refine Steps.invariant (P := fun n t => s + n ≤ t ∧ ∃ row, rows[t]? = some row)
    ⟨Nat.le_refl s, _, List.getElem?_eq_getElem hs⟩ (fun n t u ht hu => ?_) ht
  obtain ⟨hle, row, hrow⟩ := ht
  obtain ⟨next, he, hu⟩ := hu
  rw [show ((plain width rows).domain height).expand t none none = _ from expand_plain _ _ hrow,
    Except.ok.injEq] at he
  obtain ⟨hlt, row', hrow', -⟩ := isSortedAt h hrow u (he ▸ hu)
  exact ⟨by omega, row', hrow'⟩

/-- **A plain table that is sorted keeps the contract.** -/
theorem contract (h : IsSorted rows = true) {s : Nat} (hs : s < rows.length)
    (hheight : rows.length ≤ height) : Contract ((plain width rows).domain height) s where
  answers {_ t} best ht := by
    obtain ⟨-, row, hrow⟩ := le_of_steps_plain h hs ht
    exact ⟨row.2.2, expand_plain none best hrow⟩
  mono {_ t u} ht htu := by
    obtain ⟨-, row, hrow⟩ := le_of_steps_plain h hs ht
    obtain ⟨next, he, hu⟩ := htu
    rw [show ((plain width rows).domain height).expand t none none = _ from
      expand_plain _ _ hrow, Except.ok.injEq] at he
    obtain ⟨-, row', hrow', hcost⟩ := isSortedAt h hrow u (he ▸ hu)
    rw [show ((plain width rows).domain height).cost t = _ from cost_plain hrow,
      show ((plain width rows).domain height).cost u = _ from cost_plain hrow']
    exact hcost
  omits {_ t u best next} _ he htu hn := by
    obtain ⟨next', he', hu⟩ := htu
    rw [show ((plain width rows).domain height).expand t none best = _ from
      expand_hintless none best, show (plain width rows).expand t none none = _ from he',
      Except.ok.injEq] at he
    exact absurd (he ▸ hu) hn
  adds {_ t u best next} _ he hu := ⟨next, (expand_hintless none best).symm.trans he, hu⟩
  infer := (diagram_plain (List.getElem?_eq_getElem hs)).1
  relax := .inl (diagram_plain (List.getElem?_eq_getElem hs)).2.1
  restrict := ⟨width, (diagram_plain (List.getElem?_eq_getElem hs)).2.2⟩
  finite {n t} ht := by
    obtain ⟨hle, row, hrow⟩ := le_of_steps_plain h hs ht
    have := (List.getElem?_eq_some_iff.mp hrow).1
    change n < height
    omega

/-- A solution beside a branch that goes on one step further and leads nowhere. -/
def deadEndRows : List PlainRow :=
  [(0, false, [1, 2]), (1, true, []), (1, false, [3]), (2, false, [])]

/-- The dead end, with unbounded restrictions. -/
abbrev deadEnd : Domain Nat Nat := (plain 0 deadEndRows).domain 4

theorem contract_deadEnd : Contract deadEnd 0 :=
  contract (by decide : IsSorted deadEndRows = true) (by decide) (by decide)

/-- The root fails although a solution lies one step below it. -/
theorem deadEnd_overlooks : Contract deadEnd 0 ∧
    (Bound.compute deadEnd 0 none).result = .ok ⟨0, none, none, 3, .failed⟩ ∧
    deadEnd.Solution 0 1 := by
  have hstep : deadEnd.Precedes 0 1 := ⟨[1, 2], by cbv, by decide⟩
  exact ⟨contract_deadEnd, by cbv, 1, .head hstep (.refl 1), by cbv⟩

/-- That solution lies in a layer that was read. -/
theorem deadEnd_labels : Contract deadEnd 0 ∧
    ∃ n L b, Lockstep.Run deadEnd none 0 n L ∧ L.verdict deadEnd none 0 = some b ∧
      (Bound.compute deadEnd 0 none).result = .ok b ∧
      (b.label = .failed → ((∀ x, deadEnd.Solution 0 x →
          Cost.beats none (deadEnd.cost x) = false) ↔
        ∀ k x, k < n → Steps deadEnd.Precedes k 0 x → deadEnd.solved x = true →
          Cost.beats none (deadEnd.cost x) = false)) ∧
      (b.label = .exact → ((∀ x, deadEnd.Solution 0 x → deadEnd.cost b.primal ≤ deadEnd.cost x) ↔
        ∀ k x, k < n → Steps deadEnd.Precedes k 0 x → deadEnd.solved x = true →
          deadEnd.cost b.primal ≤ deadEnd.cost x)) :=
  ⟨contract_deadEnd, contract_deadEnd.labels_iff none⟩

end Table

end Fathom
