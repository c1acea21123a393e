import Fathom.Proofs.Routing.Equivalence

/-!
# How requests are joined

The precedence of an instance is read entry by entry. An entry sets the partner of its pickup and
that of its delivery; nothing is said of entries that share a delivery. Pickups are not shared, for
they are the keys of a dictionary: so the delivery of a pickup is the one of its entry
(`Recorded.deliveryOf_iff`), while the partner of a delivery is the pickup of whichever of its
entries was read last.

Results:
* `pairing_iff`: each pickup has a delivery and each delivery a pickup that leads to it; they are
  joined one-to-one (`Instance.Pairing`) exactly if no two entries have the same delivery;
* `shared_accepted`: an instance is accepted where two pickups share a delivery.
-/

namespace Fathom.Routing

namespace Instance

variable {labels : List String} {roles : List Role} {partners partners' : List (Option Nat)}
  {entries : List (String × String)} {entry : String × String} {d : Draft} {P : Instance}
  {p e : Nat}

/-! ## Reading the entries -/

/-- These entries have been read: a pickup has the delivery of its entry. -/
structure Recorded (labels : List String) (roles : List Role) (entries : List (String × String))
    (partners : List (Option Nat)) : Prop where
  length : partners.length = labels.length
  known : ∀ entry ∈ entries, ∃ p e : Nat, labels[p]? = some entry.1 ∧ labels[e]? = some entry.2 ∧
    roles[p]? = some .pickup
  entry_iff : ∀ {p e : Nat}, roles[p]? = some .pickup → (partners[p]? = some (some e) ↔
    ∃ entry ∈ entries, labels[p]? = some entry.1 ∧ labels[e]? = some entry.2)

theorem recorded_replicate : Recorded labels roles [] (List.replicate labels.length none) where
  length := List.length_replicate
  known _ h := by cases h
  entry_iff {p e} _ := by
    constructor
    · intro hp
      rw [List.getElem?_replicate] at hp
      split at hp <;> cases hp
    · rintro ⟨_, hentry, -⟩
      cases hentry

/-- **An entry is read** whose pickup has none yet. -/
theorem Recorded.step (h : Recorded labels roles entries partners) (hnodup : labels.Nodup)
    (hnew : entry.1 ∉ entries.map Prod.fst)
    (hentry : pairUp labels roles partners entry = .ok partners') :
    Recorded labels roles (entries ++ [entry]) partners' := by
  obtain ⟨p, d, hp, hd, hpickup, hdelivery, rfl⟩ := pairUp_eq_ok hentry
  have hplt := (List.getElem?_eq_some_iff.mp hp).1
  have hdlt := (List.getElem?_eq_some_iff.mp hd).1
  have hget := getElem?_pair (h.length ▸ hplt) (h.length ▸ hdlt)
  refine ⟨by rw [List.length_set, List.length_set, h.length], fun other hother => ?_,
    fun {a b} ha => ?_⟩
  · rcases List.mem_append.mp hother with hother | hother
    · exact h.known other hother
    · rw [List.mem_singleton.mp hother]
      exact ⟨p, d, hp, hd, hpickup⟩
  · have had : a ≠ d := by
      rintro rfl
      rw [ha] at hdelivery
      cases hdelivery
    rw [hget, if_neg had]
    by_cases hap : a = p
    · subst hap
      rw [if_pos rfl, Option.some.injEq, Option.some.injEq]
      constructor
      · rintro rfl
        exact ⟨entry, List.mem_append_right _ List.mem_cons_self, hp, hd⟩
      · rintro ⟨other, hother, hlabel, hb⟩
        rw [hp, Option.some.injEq] at hlabel
        rcases List.mem_append.mp hother with hother | hother
        · exact absurd (List.mem_map.mpr ⟨other, hother, hlabel.symm⟩) hnew
        · rw [List.mem_singleton.mp hother] at hb
          exact (List.getElem?_inj hdlt hnodup).mp (hd.trans hb.symm)
    · rw [if_neg hap, h.entry_iff ha]
      constructor
      · rintro ⟨other, hother, hlabels⟩
        exact ⟨other, List.mem_append_left _ hother, hlabels⟩
      · rintro ⟨other, hother, hlabel, hb⟩
        rcases List.mem_append.mp hother with hother | hother
        · exact ⟨other, hother, hlabel, hb⟩
        · rw [List.mem_singleton.mp hother] at hlabel
          exact absurd ((List.getElem?_inj hplt hnodup).mp (hp.trans hlabel.symm)).symm hap

/-- **All entries of a dictionary have been read.** -/
theorem Recorded.foldlM (h : Recorded labels roles entries partners) (hnodup : labels.Nodup)
    {more : List (String × String)} (hkeys : ((entries ++ more).map Prod.fst).Nodup)
    (hmore : more.foldlM (pairUp labels roles) partners = .ok partners') :
    Recorded labels roles (entries ++ more) partners' := by
  induction more generalizing entries partners with
  | nil =>
    cases hmore
    rwa [List.append_nil]
  | cons entry more ih =>
    rw [List.foldlM_cons] at hmore
    obtain ⟨next, hnext, hmore⟩ := bind_eq_ok_iff.mp hmore
    have hnew : entry.1 ∉ entries.map Prod.fst := by
      rw [List.map_append, List.map_cons, List.nodup_append] at hkeys
      exact fun hm => hkeys.2.2 _ hm _ List.mem_cons_self rfl
    rw [List.append_cons] at hkeys ⊢
    exact ih (h.step hnodup hnew hnext) hkeys hmore

theorem Accepted.recorded (h : Accepted d roles partners P)
    (hkeys : (d.precedence.map Prod.fst).Nodup) : Recorded d.nodes roles d.precedence partners :=
  recorded_replicate.foldlM (rolesOf_eq_ok h.told).1 hkeys h.pairs

/-- **The delivery of a pickup is the one of its entry.** -/
theorem Recorded.deliveryOf_iff (h : Recorded d.nodes roles d.precedence partners)
    (hreads : Reads d roles partners P) : P.deliveryOf p = some e ↔
      ∃ entry ∈ d.precedence, d.nodes[p]? = some entry.1 ∧ d.nodes[e]? = some entry.2 := by
  rw [hreads.deliveryOf_eq_some_iff]
  constructor
  · rintro ⟨hp, he⟩
    exact (h.entry_iff hp).mp he
  · rintro ⟨entry, hentry, hp, he⟩
    obtain ⟨p', -, hp', -, hrole⟩ := h.known entry hentry
    obtain rfl : p = p' :=
      (List.getElem?_inj (List.getElem?_eq_some_iff.mp hp).1 hreads.nodup).mp (hp.trans hp'.symm)
    exact ⟨hrole, (h.entry_iff hrole).mpr ⟨entry, hentry, hp, he⟩⟩

/-! ## Pairings -/

/-- Pickups and deliveries are joined one-to-one, and each knows the other. -/
structure Pairing (P : Instance) : Prop where
  delivered : ∀ p ∈ P.pickups, ∃ e ∈ P.deliveries, P.deliveryOf p = some e
  pickedUp : ∀ e ∈ P.deliveries, ∃ p ∈ P.pickups, P.deliveryOf p = some e
  oneToOne : P.OneToOne
  partner : ∀ p e, P.deliveryOf p = some e → P.partners.getD e none = some p

theorem mem_deliveries (hP : P.WellFormed) : e ∈ P.deliveries ↔ P.role? e = some .delivery := by
  rw [deliveries, List.mem_filter, nodes, List.mem_range, isDelivery, beq_iff_eq]
  exact ⟨fun h => h.2, fun h => ⟨hP.lt_of_role h, h⟩⟩

/-- The delivery of a pickup is a delivery. -/
theorem WellFormed.exists_mem_deliveries (hP : P.WellFormed) (hp : p ∈ P.pickups) :
    ∃ e ∈ P.deliveries, P.deliveryOf p = some e := by
  rw [pickups, List.mem_filter, isPickup, beq_iff_eq] at hp
  obtain ⟨e, he⟩ := hP.exists_delivery hp.2
  exact ⟨e, (mem_deliveries hP).mpr (hP.delivers he), he⟩

/-- **The partner of a delivery is a pickup that leads to it.** -/
theorem Reads.exists_mem_pickups (h : Reads d roles partners P) (he : e ∈ P.deliveries) :
    ∃ p ∈ P.pickups, P.deliveryOf p = some e ∧ P.partners.getD e none = some p := by
  obtain ⟨keys, hpairs⟩ := h.paired
  have hrole := (mem_deliveries h.wellFormed).mp he
  rw [h.role?] at hrole
  obtain ⟨p, hp⟩ := h.exists_partner hrole (.inr rfl)
  obtain ⟨hpickup, hpartner⟩ := hpairs.delivery hp hrole
  refine ⟨p, ?_, h.deliveryOf_eq_some_iff.mpr ⟨hpickup, hpartner⟩, ?_⟩
  · rw [pickups, List.mem_filter, nodes, List.mem_range, isPickup, h.role?, hpickup]
    exact ⟨h.lt hpickup, rfl⟩
  · rw [h.partners_eq, Array.getD_eq_getD_getElem?, List.getElem?_toArray, hp]
    rfl

/-- Joined one-to-one, a delivery has the pickup that leads to it as its partner. -/
theorem Reads.pairing (h : Reads d roles partners P) (hone : P.OneToOne) : P.Pairing where
  delivered _ hp := h.wellFormed.exists_mem_deliveries hp
  pickedUp e he := by
    obtain ⟨p, hp, hpe, -⟩ := h.exists_mem_pickups he
    exact ⟨p, hp, hpe⟩
  oneToOne := hone
  partner p e hpe := by
    obtain ⟨p', -, hpe', hpartner⟩ :=
      h.exists_mem_pickups ((mem_deliveries h.wellFormed).mpr (h.wellFormed.delivers hpe))
    rw [hpartner, hone p p' e hpe hpe']

/-- **No two pickups share a delivery exactly if no two entries do.** -/
theorem Recorded.oneToOne_iff (h : Recorded d.nodes roles d.precedence partners)
    (hreads : Reads d roles partners P) (hkeys : (d.precedence.map Prod.fst).Nodup) :
    P.OneToOne ↔ (d.precedence.map Prod.snd).Nodup := by
  rw [List.nodup_map_iff_inj_on hkeys.of_map]
  constructor
  · intro hone x hx y hy hxy
    obtain ⟨p, e, hp, he, -⟩ := h.known x hx
    obtain ⟨p', -, hp', -, -⟩ := h.known y hy
    obtain rfl : p = p' := hone p p' e ((h.deliveryOf_iff hreads).mpr ⟨x, hx, hp, he⟩)
      ((h.deliveryOf_iff hreads).mpr ⟨y, hy, hp', hxy ▸ he⟩)
    exact Prod.ext (Option.some.inj (hp.symm.trans hp')) hxy
  · intro hinj p p' e hpe hpe'
    obtain ⟨x, hx, hp, he⟩ := (h.deliveryOf_iff hreads).mp hpe
    obtain ⟨y, hy, hp', he'⟩ := (h.deliveryOf_iff hreads).mp hpe'
    obtain rfl := hinj x hx y hy (Option.some.inj (he.symm.trans he'))
    exact (List.getElem?_inj (List.getElem?_eq_some_iff.mp hp).1 hreads.nodup).mp
      (hp.trans hp'.symm)

/-- **What validation makes of the precedence.** A text is accepted for the typed draft that it
holds. In the instance of a typed draft, a pickup has the delivery of its entry; each pickup has
one, and each delivery has a partner that leads to it. Pickups and deliveries are joined one-to-one
exactly if no delivery is given to two pickups. -/
theorem pairing_iff (P : Instance) :
    (∀ text, ofText text = .ok P → ∃ v d, Json.Value.ofText? text = some v ∧
      Draft.ofValue? v = some d ∧ d.Typed ∧ ofDraft d = .ok P) ∧
    ∀ d : Draft, d.Typed → ofDraft d = .ok P →
      (∀ p e, P.deliveryOf p = some e ↔
        ∃ entry ∈ d.precedence, d.nodes[p]? = some entry.1 ∧ d.nodes[e]? = some entry.2) ∧
      (∀ p ∈ P.pickups, ∃ e ∈ P.deliveries, P.deliveryOf p = some e) ∧
      (∀ e ∈ P.deliveries, ∃ p ∈ P.pickups,
        P.deliveryOf p = some e ∧ P.partners.getD e none = some p) ∧
      (P.Pairing ↔ (d.precedence.map Prod.snd).Nodup) := by
  refine ⟨fun _ => exists_typed, fun d hd hP => ?_⟩
  obtain ⟨roles, partners, haccepted⟩ := accepted_of_ofDraft hP
  have hreads := haccepted.reads hd.keys
  have hrecorded := haccepted.recorded hd.keys
  refine ⟨fun p e => hrecorded.deliveryOf_iff hreads,
    fun p => hreads.wellFormed.exists_mem_deliveries, fun e => hreads.exists_mem_pickups, ?_⟩
  rw [← hrecorded.oneToOne_iff hreads hd.keys]
  exact ⟨Pairing.oneToOne, hreads.pairing⟩

/-- The requests of the two that cross are joined one-to-one. -/
theorem dearReturn_pairing : dearReturnDraft.Typed ∧ ofDraft dearReturnDraft = .ok dearReturn ∧
    (∀ p e, dearReturn.deliveryOf p = some e ↔
      ∃ entry ∈ dearReturnDraft.precedence,
        dearReturnDraft.nodes[p]? = some entry.1 ∧ dearReturnDraft.nodes[e]? = some entry.2) ∧
    (∀ p ∈ dearReturn.pickups, ∃ e ∈ dearReturn.deliveries, dearReturn.deliveryOf p = some e) ∧
    (∀ e ∈ dearReturn.deliveries, ∃ p ∈ dearReturn.pickups,
      dearReturn.deliveryOf p = some e ∧ dearReturn.partners.getD e none = some p) ∧
    dearReturn.Pairing := by
  obtain ⟨hentries, hdelivered, hpickedUp, hpairing⟩ :=
    (pairing_iff dearReturn).2 dearReturnDraft typed_dearReturn ofDraft_dearReturn
  exact ⟨typed_dearReturn, ofDraft_dearReturn, hentries, hdelivered, hpickedUp,
    hpairing.mpr (by decide)⟩

/-- **Two pickups with one delivery are accepted.** The delivery has the second of them as its
partner, although the first leads to it too. -/
theorem shared_accepted : ofText sharedText = .ok shared ∧ 1 ∈ shared.pickups ∧
    2 ∈ shared.pickups ∧ shared.deliveryOf 1 = some 3 ∧ shared.deliveryOf 2 = some 3 ∧
    shared.partners.getD 3 none = some 2 ∧ ¬shared.Pairing := by
  have hfirst : shared.deliveryOf 1 = some 3 := by decide
  have hsecond : shared.deliveryOf 2 = some 3 := by decide
  refine ⟨ofText_shared, by decide, by decide, hfirst, hsecond, by decide, fun h => ?_⟩
  have heq : (1 : Nat) = 2 := h.oneToOne 1 2 3 hfirst hsecond
  cases heq

end Instance

end Fathom.Routing
