import Fathom.Proofs.Routing.Pairing

/-!
# Which drafts are instances

`Draft.Valid` says what is asked of a draft, and says it of its labels alone: the checks number the
nodes, give each its role and keep a table of partners, and none of this shows. It asks nothing of
the order of the precedence entries either, although the checks take them one by one, and the table
depends on their order where a delivery is shared.

An entry can be read just if it joins a pickup to a delivery, whatever was read before it
(`exists_pairUp_iff`). A node has a partner once an entry has been read that it occurs in, and never
loses it again (`hasPartner_foldlM`); the last check, for nodes without a request, asks for no more.

Results:
* `exists_ofDraft_iff`: the drafts that are accepted are the valid ones;
* `agrees_of_perm`: entries listed in another order make an instance that tells the same of its
  nodes and arcs;
* `accepts_in_any_order`: both together, for the entries of a dictionary.
-/

namespace Fathom.Routing

variable {label : String}

/-! ## Labels -/

theorem ofLabel_eq_pickup_iff : Role.ofLabel? label = some .pickup ↔
    label ≠ startLabel ∧ label ≠ finishLabel ∧ '+' ∈ label.toList := by
  unfold Role.ofLabel?
  split_ifs <;> simp_all

theorem ofLabel_eq_delivery_iff : Role.ofLabel? label = some .delivery ↔
    label ≠ startLabel ∧ label ≠ finishLabel ∧ '+' ∉ label.toList ∧ '-' ∈ label.toList := by
  unfold Role.ofLabel?
  split_ifs <;> simp_all

/-- A label tells a role if it has a sign. -/
theorem exists_ofLabel_iff : (∃ role, Role.ofLabel? label = some role) ↔
    '+' ∈ label.toList ∨ '-' ∈ label.toList := by
  have hstart : '+' ∈ startLabel.toList := by decide
  have hfinish : '-' ∈ finishLabel.toList := by decide
  unfold Role.ofLabel?
  split_ifs <;> simp_all

namespace Draft

/-- The label of a node that is a pickup: no depot, and with a plus sign. -/
def IsPickup (d : Draft) (label : String) : Prop :=
  label ∈ d.nodes ∧ label ≠ startLabel ∧ label ≠ finishLabel ∧ '+' ∈ label.toList

/-- The label of a node that is a delivery: no depot, and with a minus sign but no plus sign. -/
def IsDelivery (d : Draft) (label : String) : Prop :=
  label ∈ d.nodes ∧ label ≠ startLabel ∧ label ≠ finishLabel ∧
    '+' ∉ label.toList ∧ '-' ∈ label.toList

/-- The draft describes an instance. -/
structure Valid (d : Draft) : Prop where
  square : d.edges.length = d.nodes.length ∧ ∀ row ∈ d.edges, row.length = d.nodes.length
  distinct : d.nodes.Nodup
  signed : ∀ label ∈ d.nodes, '+' ∈ label.toList ∨ '-' ∈ label.toList
  start : startLabel ∈ d.nodes
  finish : finishLabel ∈ d.nodes
  joined : ∀ entry ∈ d.precedence, d.IsPickup entry.1 ∧ d.IsDelivery entry.2
  requested : ∀ label, d.IsPickup label ∨ d.IsDelivery label →
    ∃ entry ∈ d.precedence, label = entry.1 ∨ label = entry.2

theorem isPickup_iff {d : Draft} :
    d.IsPickup label ↔ label ∈ d.nodes ∧ Role.ofLabel? label = some .pickup := by
  rw [IsPickup, ofLabel_eq_pickup_iff]

theorem isDelivery_iff {d : Draft} :
    d.IsDelivery label ↔ label ∈ d.nodes ∧ Role.ofLabel? label = some .delivery := by
  rw [IsDelivery, ofLabel_eq_delivery_iff]

/-- **Validity does not depend on the order of the entries.** -/
theorem Valid.perm {d : Draft} (h : d.Valid) {entries : List (String × String)}
    (hperm : entries.Perm d.precedence) : Valid { d with precedence := entries } where
  square := h.square
  distinct := h.distinct
  signed := h.signed
  start := h.start
  finish := h.finish
  joined entry hentry := h.joined entry (hperm.mem_iff.mp hentry)
  requested label hlabel := by
    obtain ⟨entry, hentry, hoccurs⟩ := h.requested label hlabel
    exact ⟨entry, hperm.mem_iff.mpr hentry, hoccurs⟩

theorem valid_perm_iff {d : Draft} {entries : List (String × String)}
    (hperm : entries.Perm d.precedence) : Valid { d with precedence := entries } ↔ d.Valid :=
  ⟨fun h => h.perm hperm.symm, fun h => h.perm hperm⟩

end Draft

namespace Instance

variable {labels seen : List String} {roles : List Role} {partners partners' : List (Option Nat)}
  {entries : List (String × String)} {entry : String × String} {d : Draft} {P Q : Instance}
  {a : Nat}

/-! ## The nodes -/

/-- **Roles are told** of labels that are new and have one. -/
theorem rolesOf_total (hnodup : labels.Nodup) (hnew : ∀ label ∈ labels, label ∉ seen)
    (hrole : ∀ label ∈ labels, ∃ role, Role.ofLabel? label = some role) :
    ∃ roles, rolesOf seen labels = .ok roles := by
  induction labels generalizing seen with
  | nil => exact ⟨[], rfl⟩
  | cons label more ih =>
    rw [List.nodup_cons] at hnodup
    obtain ⟨role, hlabel⟩ := hrole label List.mem_cons_self
    have hmore : ∀ other ∈ more, other ∉ label :: seen := by
      intro other hother
      rw [List.mem_cons, not_or]
      refine ⟨?_, hnew other (List.mem_cons_of_mem _ hother)⟩
      rintro rfl
      exact hnodup.1 hother
    obtain ⟨roles, hroles⟩ := ih hnodup.2 hmore
      fun other hother => hrole other (List.mem_cons_of_mem _ hother)
    refine ⟨role :: roles, ?_⟩
    simp [rolesOf, hnew label List.mem_cons_self, hlabel, hroles]

/-! ## The entries -/

/-- The entry joins a pickup to a delivery. -/
def Joinable (labels : List String) (roles : List Role) (entry : String × String) : Prop :=
  ∃ p e, labels.idxOf? entry.1 = some p ∧ labels.idxOf? entry.2 = some e ∧
    roles[p]? = some .pickup ∧ roles[e]? = some .delivery

/-- Whether an entry can be read does not depend on those before it. -/
theorem exists_pairUp_iff :
    (∃ partners', pairUp labels roles partners entry = .ok partners') ↔
      Joinable labels roles entry := by
  unfold pairUp Joinable
  cases labels.idxOf? entry.1 with
  | none => simp
  | some p =>
    cases labels.idxOf? entry.2 with
    | none => simp
    | some e =>
      by_cases hroles : roles[p]? = some .pickup ∧ roles[e]? = some .delivery
      · simp [hroles]
      · simp [hroles]

theorem exists_foldlM_iff :
    (∃ partners', entries.foldlM (pairUp labels roles) partners = .ok partners') ↔
      ∀ entry ∈ entries, Joinable labels roles entry := by
  induction entries generalizing partners with
  | nil => exact ⟨fun _ => List.forall_mem_nil _, fun _ => ⟨partners, rfl⟩⟩
  | cons entry entries ih =>
    rw [List.forall_mem_cons, List.foldlM_cons]
    constructor
    · rintro ⟨partners', h⟩
      obtain ⟨next, hnext, h⟩ := bind_eq_ok_iff.mp h
      exact ⟨exists_pairUp_iff.mp ⟨next, hnext⟩, ih.mp ⟨partners', h⟩⟩
    · rintro ⟨hentry, hentries⟩
      obtain ⟨next, hnext⟩ : ∃ next, pairUp labels roles partners entry = .ok next :=
        exists_pairUp_iff.mpr hentry
      obtain ⟨partners', h⟩ := ih.mpr hentries
      exact ⟨partners', bind_eq_ok_iff.mpr ⟨next, hnext, h⟩⟩

/-- The node has been given a partner. -/
def HasPartner (partners : List (Option Nat)) (a : Nat) : Prop := ∃ b, partners[a]? = some (some b)

/-- The label of the node is one of the two of the entry. -/
def Occurs (labels : List String) (entry : String × String) (a : Nat) : Prop :=
  labels[a]? = some entry.1 ∨ labels[a]? = some entry.2

/-- An entry gives partners to the nodes that occur in it. -/
theorem hasPartner_pairUp (hnodup : labels.Nodup) (hlen : partners.length = labels.length)
    (h : pairUp labels roles partners entry = .ok partners') :
    HasPartner partners' a ↔ HasPartner partners a ∨ Occurs labels entry a := by
  obtain ⟨p, e, hp, he, -, -, rfl⟩ := pairUp_eq_ok h
  have hplt := (List.getElem?_eq_some_iff.mp hp).1
  have helt := (List.getElem?_eq_some_iff.mp he).1
  have hp' : labels[a]? = some entry.1 ↔ a = p := by
    rw [← hp, eq_comm, List.getElem?_inj hplt hnodup, eq_comm]
  have he' : labels[a]? = some entry.2 ↔ a = e := by
    rw [← he, eq_comm, List.getElem?_inj helt hnodup, eq_comm]
  simp only [HasPartner, Occurs, hp', he', getElem?_pair (hlen ▸ hplt) (hlen ▸ helt)]
  split_ifs <;> simp_all

/-- **The nodes with a partner** are those that occur in an entry. -/
theorem hasPartner_foldlM (hnodup : labels.Nodup) (hlen : partners.length = labels.length)
    (h : entries.foldlM (pairUp labels roles) partners = .ok partners') :
    HasPartner partners' a ↔ HasPartner partners a ∨ ∃ entry ∈ entries, Occurs labels entry a := by
  induction entries generalizing partners with
  | nil =>
    cases h
    simp
  | cons entry entries ih =>
    rw [List.foldlM_cons] at h
    obtain ⟨next, hnext, h⟩ := bind_eq_ok_iff.mp h
    have hlen' : next.length = labels.length := by
      obtain ⟨_, _, -, -, -, -, rfl⟩ := pairUp_eq_ok hnext
      rw [List.length_set, List.length_set, hlen]
    rw [ih hlen' h, hasPartner_pairUp hnodup hlen hnext, List.exists_mem_cons_iff, or_assoc]

theorem not_hasPartner_replicate {n : Nat} : ¬HasPartner (List.replicate n none) a := by
  rintro ⟨b, hb⟩
  rw [List.getElem?_replicate] at hb
  split at hb <;> cases hb

theorem isUnpaired_eq_false_iff : isUnpaired roles partners a = false ↔
    (roles[a]? = some .pickup ∨ roles[a]? = some .delivery → HasPartner partners a) := by
  rw [isUnpaired, Bool.and_eq_false_imp, Bool.or_eq_true, beq_iff_eq, beq_iff_eq]
  refine imp_congr Iff.rfl ?_
  rw [Option.isNone_eq_false_iff, Option.isSome_iff_exists, HasPartner]
  simp only [Option.join_eq_some_iff]

/-! ## Which drafts are accepted -/

/-- Entries are read just if they join pickups to deliveries. -/
theorem joinable_iff (hroles : rolesOf [] d.nodes = .ok roles) :
    Joinable d.nodes roles entry ↔ d.IsPickup entry.1 ∧ d.IsDelivery entry.2 := by
  obtain ⟨-, -, htold⟩ := rolesOf_eq_ok hroles
  have hget : ∀ {label : String} {a : Nat}, d.nodes.idxOf? label = some a →
      roles[a]? = Role.ofLabel? label := fun h => by
    rw [getElem?_roles htold, getElem?_of_idxOf? h, Option.bind_some]
  rw [Draft.isPickup_iff, Draft.isDelivery_iff]
  constructor
  · rintro ⟨p, e, hp, he, hpickup, hdelivery⟩
    exact ⟨⟨List.mem_of_getElem? (getElem?_of_idxOf? hp), hget hp ▸ hpickup⟩,
      List.mem_of_getElem? (getElem?_of_idxOf? he), hget he ▸ hdelivery⟩
  · rintro ⟨⟨hp, hpickup⟩, he, hdelivery⟩
    obtain ⟨p, hp⟩ := Option.isSome_iff_exists.mp (List.isSome_idxOf?.mpr hp)
    obtain ⟨e, he⟩ := Option.isSome_iff_exists.mp (List.isSome_idxOf?.mpr he)
    exact ⟨p, e, hp, he, (hget hp).trans hpickup, (hget he).trans hdelivery⟩

/-- **No node is left over** just if each pickup and each delivery occurs in an entry. -/
theorem complete_iff (hroles : rolesOf [] d.nodes = .ok roles)
    (hpairs : d.precedence.foldlM (pairUp d.nodes roles) (List.replicate d.nodes.length none) =
      .ok partners) :
    (∀ a < d.nodes.length, isUnpaired roles partners a = false) ↔
      ∀ label, d.IsPickup label ∨ d.IsDelivery label →
        ∃ entry ∈ d.precedence, label = entry.1 ∨ label = entry.2 := by
  obtain ⟨hnodup, -, htold⟩ := rolesOf_eq_ok hroles
  have hpartner : ∀ a, HasPartner partners a ↔ ∃ entry ∈ d.precedence, Occurs d.nodes entry a :=
    fun a => (hasPartner_foldlM hnodup List.length_replicate hpairs).trans
      (or_iff_right not_hasPartner_replicate)
  simp only [isUnpaired_eq_false_iff, hpartner, getElem?_roles htold, Occurs]
  constructor
  · intro h label hlabel
    rw [Draft.isPickup_iff, Draft.isDelivery_iff, ← and_or_left] at hlabel
    obtain ⟨a, ha, rfl⟩ := List.mem_iff_getElem.mp hlabel.1
    simpa [List.getElem?_eq_getElem ha] using h a ha (by simpa [ha] using hlabel.2)
  · intro h a ha hrole
    rw [List.getElem?_eq_getElem ha] at hrole ⊢
    simpa using h d.nodes[a] (by
      rw [Draft.isPickup_iff, Draft.isDelivery_iff, ← and_or_left]
      exact ⟨List.getElem_mem ha, hrole⟩)

/-- What is accepted is valid. -/
theorem valid_of_ofDraft (hP : ofDraft d = .ok P) : d.Valid := by
  obtain ⟨roles, partners, h⟩ := accepted_of_ofDraft hP
  obtain ⟨hnodup, -, htold⟩ := rolesOf_eq_ok h.told
  constructor
  · exact ⟨h.edges, h.row⟩
  · exact hnodup
  · intro label hlabel
    obtain ⟨role, -, hrole⟩ := forall₂_mem_left htold hlabel
    exact exists_ofLabel_iff.mp ⟨role, hrole⟩
  · exact List.isSome_idxOf?.mp (Option.isSome_iff_exists.mpr ⟨_, h.start⟩)
  · exact List.isSome_idxOf?.mp (Option.isSome_iff_exists.mpr ⟨_, h.finish⟩)
  · intro entry hentry
    exact (joinable_iff h.told).mp (exists_foldlM_iff.mp ⟨partners, h.pairs⟩ entry hentry)
  · exact (complete_iff h.told h.pairs).mp h.complete

/-- **The drafts that are accepted are the valid ones.** -/
theorem exists_ofDraft_iff : (∃ P, ofDraft d = .ok P) ↔ d.Valid := by
  refine ⟨fun ⟨P, hP⟩ => valid_of_ofDraft hP, fun h => ?_⟩
  have hsquare : ¬(d.edges.length ≠ d.nodes.length ∨
      ∃ row ∈ d.edges, row.length ≠ d.nodes.length) := by
    rintro (hlen | ⟨row, hrow, hlen⟩)
    · exact hlen h.square.1
    · exact hlen (h.square.2 row hrow)
  obtain ⟨roles, hroles⟩ : ∃ roles, rolesOf [] d.nodes = .ok roles :=
    rolesOf_total h.distinct (fun _ _ => List.not_mem_nil)
      fun label hlabel => exists_ofLabel_iff.mpr (h.signed label hlabel)
  obtain ⟨start, hstart⟩ := Option.isSome_iff_exists.mp (List.isSome_idxOf?.mpr h.start)
  obtain ⟨finish, hfinish⟩ := Option.isSome_iff_exists.mp (List.isSome_idxOf?.mpr h.finish)
  obtain ⟨partners, hpairs⟩ : ∃ partners, d.precedence.foldlM (pairUp d.nodes roles)
      (List.replicate d.nodes.length none) = .ok partners :=
    exists_foldlM_iff.mpr fun entry hentry => (joinable_iff hroles).mpr (h.joined entry hentry)
  have hcomplete : (List.range d.nodes.length).find? (isUnpaired roles partners) = none := by
    rw [List.find?_eq_none]
    intro a ha
    rw [(complete_iff hroles hpairs).mpr h.requested a (List.mem_range.mp ha)]
    exact Bool.false_ne_true
  simp only [ofDraft, if_neg hsquare, bind, Except.bind, hroles, hstart, hfinish, hpairs,
    hcomplete]
  exact ⟨_, rfl⟩

/-! ## The order of the entries -/

/-- The instances tell the same of their nodes and arcs. Nothing is said of the partners of
deliveries, which nothing asks for. -/
structure Agrees (P Q : Instance) : Prop where
  labels : Q.labels = P.labels
  roles : Q.roles = P.roles
  start : Q.start = P.start
  finish : Q.finish = P.finish
  costs : Q.costs = P.costs
  deliveryOf : ∀ a, Q.deliveryOf a = P.deliveryOf a
  precedes : ∀ a b, Q.precedes a b = P.precedes a b
  isFeasible : ∀ a b, Q.isFeasible a b = P.isFeasible a b

/-- The nodes are found by their labels, and by nothing else. -/
structure Indexed (P : Instance) : Prop where
  label : ∀ a < P.size, P.index? (P.label a) = some a
  other : ∀ label, (∀ a < P.size, P.label a ≠ label) → P.index? label = none

theorem Accepted.indexed (h : Accepted d roles partners P) : P.Indexed := by
  have hnodup := (rolesOf_eq_ok h.told).1
  have hsize : P.size = d.nodes.length := by simp [Instance.size, h.labels_eq]
  have hlabel : ∀ a, ∀ ha : a < d.nodes.length, P.label a = d.nodes[a] := fun a ha => by
    simp [Instance.label, h.labels_eq, ha]
  constructor
  · intro a ha
    rw [hsize] at ha
    rw [index?, h.labels_eq, hlabel a ha, List.idxOf?_eq_some_iff]
    refine ⟨ha, rfl, fun b hb hab => ?_⟩
    rw [hnodup.getElem_inj_iff] at hab
    omega
  · intro label hother
    rw [index?, h.labels_eq, List.idxOf?_eq_none_iff]
    intro hmem
    obtain ⟨a, ha, rfl⟩ := List.mem_iff_getElem.mp hmem
    exact hother a (hsize ▸ ha) (hlabel a ha)

theorem indexed_of_ofDraft (h : ofDraft d = .ok P) : P.Indexed := by
  obtain ⟨roles, partners, haccepted⟩ := accepted_of_ofDraft h
  exact haccepted.indexed

/-- Arcs are judged by roles, depots and deliveries only. -/
theorem isFeasible_congr (hroles : Q.roles = P.roles) (hstart : Q.start = P.start)
    (hfinish : Q.finish = P.finish) (hdelivery : ∀ a, Q.deliveryOf a = P.deliveryOf a) (a b : Nat) :
    Q.isFeasible a b = P.isFeasible a b := by
  simp only [isFeasible, precedes, role?, hroles, hstart, hfinish, hdelivery]

/-- **Entries that are listed in another order** make an instance that agrees. -/
theorem agrees_of_perm (hkeys : (d.precedence.map Prod.fst).Nodup)
    (hperm : entries.Perm d.precedence) (hP : ofDraft d = .ok P)
    (hQ : ofDraft { d with precedence := entries } = .ok Q) : P.Agrees Q := by
  obtain ⟨roles, partners, h⟩ := accepted_of_ofDraft hP
  obtain ⟨roles', partners', h'⟩ := accepted_of_ofDraft hQ
  have hkeys' : (entries.map Prod.fst).Nodup := (hperm.map Prod.fst).nodup_iff.mpr hkeys
  obtain rfl : roles' = roles := Except.ok.inj (h'.told.symm.trans h.told)
  have hroles : Q.roles = P.roles := h'.roles_eq.trans h.roles_eq.symm
  have hstart : Q.start = P.start := Option.some.inj (h'.start.symm.trans h.start)
  have hfinish : Q.finish = P.finish := Option.some.inj (h'.finish.symm.trans h.finish)
  -- the delivery of a pickup is the one of its entry, wherever the entry stands
  have hdelivery : ∀ a, Q.deliveryOf a = P.deliveryOf a := by
    intro a
    refine Option.ext fun e => ?_
    rw [(h'.recorded hkeys').deliveryOf_iff (h'.reads hkeys'),
      (h.recorded hkeys).deliveryOf_iff (h.reads hkeys)]
    exact exists_congr fun entry => and_congr_left fun _ => hperm.mem_iff
  exact {
    labels := h'.labels_eq.trans h.labels_eq.symm
    roles := hroles
    start := hstart
    finish := hfinish
    costs := h'.costs_eq.trans h.costs_eq.symm
    deliveryOf := hdelivery
    precedes := fun a b => by rw [precedes, precedes, hdelivery]
    isFeasible := isFeasible_congr hroles hstart hfinish hdelivery }

/-- **Validation accepts the valid drafts, in whatever order their entries are listed.** A draft is
accepted with its entries in either order just if it is valid, so in both or in neither; the two
instances agree, and each finds its nodes by their labels. -/
theorem accepts_in_any_order (hkeys : (d.precedence.map Prod.fst).Nodup)
    (hperm : entries.Perm d.precedence) :
    ((∃ P, ofDraft d = .ok P) ↔ d.Valid) ∧
    ((∃ Q, ofDraft { d with precedence := entries } = .ok Q) ↔ d.Valid) ∧
    ∀ P Q, ofDraft d = .ok P → ofDraft { d with precedence := entries } = .ok Q →
      P.Agrees Q ∧ P.Indexed ∧ Q.Indexed := by
  refine ⟨exists_ofDraft_iff, exists_ofDraft_iff.trans (Draft.valid_perm_iff hperm),
    fun P Q hP hQ => ⟨agrees_of_perm hkeys hperm hP hQ, ?_, ?_⟩⟩
  · exact indexed_of_ofDraft hP
  · exact indexed_of_ofDraft hQ

/-- The entry that is read last tells the partner of the delivery, and nothing else. -/
theorem shared_in_any_order :
    let first := ("+1", "-1")
    let second := ("+2", "-1")
    let P := shared
    let Q := { shared with partners := #[none, some 3, some 3, some 1, none] }
    ([first, second].map Prod.fst).Nodup ∧ [second, first].Perm [first, second] ∧
    ofDraft (sharedDraft [first, second]) = .ok P ∧
    ofDraft (sharedDraft [second, first]) = .ok Q ∧ P.partners ≠ Q.partners ∧
    (sharedDraft [first, second]).Valid ∧ P.Agrees Q ∧ P.Indexed ∧ Q.Indexed := by
  have hkeys : ([("+1", "-1"), ("+2", "-1")].map Prod.fst).Nodup := by decide
  have hperm : [("+2", "-1"), ("+1", "-1")].Perm [("+1", "-1"), ("+2", "-1")] := .swap ..
  have hQ : ofDraft (sharedDraft [("+2", "-1"), ("+1", "-1")]) =
      .ok { shared with partners := #[none, some 3, some 3, some 1, none] } := rfl
  obtain ⟨hvalid, -, hagrees⟩ := accepts_in_any_order
    (d := sharedDraft [("+1", "-1"), ("+2", "-1")]) hkeys hperm
  exact ⟨hkeys, hperm, ofDraft_shared, hQ, by decide, hvalid.mp ⟨_, ofDraft_shared⟩,
    hagrees _ _ ofDraft_shared hQ⟩

end Instance

end Fathom.Routing
