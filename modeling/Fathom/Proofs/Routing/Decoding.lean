import Fathom.Proofs.Answers
import Fathom.Routing.Validation
import Mathlib.Data.List.Nodup

/-!
# What decoding guarantees

`Draft.Typed` is what the types of its fields say of a draft: its precedence is a dictionary, its
costs are 64-bit integers. Whatever is proved of the instances of typed drafts holds of those that
texts write, for the reader makes no others.

`Instance.WellFormed` is what may be relied on of an instance that was accepted: each node has a
role, the depots are the only nodes of theirs, each pickup has a delivery, and each delivery has a
pickup that leads to it. Two pickups may share a delivery: `Instance.OneToOne` excludes that.

A precedence entry sets the partner of its pickup and that of its delivery. That each delivery is
the partner of its own partner in the end rests on the keys of the dictionary: none is repeated, so
that the partner of a pickup is set only once (`Paired.pair`).

Results:
* `exists_typed`: an instance that a text writes comes from a typed draft;
* `wellFormed_of_ofDraft`: the instance of a typed draft is well-formed;
* `inRange_cost`: its costs are 64-bit integers.
-/

namespace Fathom.Routing

/-! ## The keys of a dictionary -/

namespace Draft

theorem keys_assign {entries : List (String × String)} {entry : String × String}
    (h : (entries.map Prod.fst).Nodup) : ((assign entries entry).map Prod.fst).Nodup := by
  unfold assign
  split
  · have hkeys : (entries.map fun old => if old.1 == entry.1 then entry else old).map Prod.fst =
        entries.map Prod.fst := by
      rw [List.map_map]
      refine List.map_congr_left fun old _ => ?_
      by_cases hold : old.1 = entry.1 <;> simp [hold]
    rwa [hkeys]
  · rename_i hnew
    rw [List.map_append, List.map_singleton, List.nodup_append]
    refine ⟨h, List.nodup_singleton _, fun key hkey other hother he => hnew ?_⟩
    obtain ⟨old, hold, rfl⟩ := List.mem_map.mp hkey
    rw [List.mem_singleton] at hother
    exact List.any_eq_true.mpr ⟨old, hold, beq_iff_eq.mpr (he.trans hother)⟩

theorem keys_foldl_assign (new : List (String × String)) {entries : List (String × String)}
    (h : (entries.map Prod.fst).Nodup) : ((new.foldl assign entries).map Prod.fst).Nodup := by
  induction new generalizing entries with
  | nil => exact h
  | cons entry new ih => exact ih (keys_assign h)

/-- No key of a dictionary is repeated. -/
theorem keys_dictionary {v : Json.Value} {entries : List (String × String)}
    (h : dictionary? v = some entries) : (entries.map Prod.fst).Nodup := by
  obtain ⟨members, -, h⟩ := Option.bind_eq_some_iff.mp h
  obtain ⟨new, -, h⟩ := Option.bind_eq_some_iff.mp h
  cases h
  exact keys_foldl_assign new List.nodup_nil

theorem keys_optional {members : List (String × Json.Value)} {key : String}
    {entries : List (String × String)}
    (h : optional members key [] dictionary? = some entries) : (entries.map Prod.fst).Nodup := by
  obtain ⟨field, -, h⟩ := Option.bind_eq_some_iff.mp h
  cases field with
  | none =>
    cases h
    exact List.nodup_nil
  | some v => exact keys_dictionary h

theorem keys_precedence {v : Json.Value} {d : Draft} (h : ofValue? v = some d) :
    (d.precedence.map Prod.fst).Nodup := by
  unfold ofValue? at h
  split at h
  · simp only [Option.bind_eq_bind, Option.bind_eq_some_iff, Option.some.injEq] at h
    obtain ⟨_, -, _, -, _, -, entries, hentries, _, -, rfl⟩ := h
    exact keys_dictionary hentries
  · simp only [Option.bind_eq_bind, Option.bind_eq_some_iff, Option.some.injEq] at h
    obtain ⟨_, -, _, -, _, -, _, -, entries, hentries, _, -, rfl⟩ := h
    exact keys_optional hentries

/-! ## The costs of a draft -/

theorem exists_of_mem_mapM {α β : Type} {f : α → Option β} {items : List α} {answers : List β}
    (h : items.mapM f = some answers) {b : β} (hb : b ∈ answers) : ∃ a ∈ items, f a = some b := by
  induction items generalizing answers with
  | nil =>
    cases h
    cases hb
  | cons a items ih =>
    rw [List.mapM_cons] at h
    obtain ⟨answer, ha, h⟩ := Option.bind_eq_some_iff.mp h
    obtain ⟨rest, hrest, h⟩ := Option.bind_eq_some_iff.mp h
    cases h
    obtain rfl | hb := List.mem_cons.mp hb
    · exact ⟨a, List.mem_cons_self, ha⟩
    · obtain ⟨other, hother, hread⟩ := ih hrest hb
      exact ⟨other, List.mem_cons_of_mem _ hother, hread⟩

/-- The items of an array have been read. -/
theorem exists_of_mem_list {α : Type} {read : Json.Value → Option α} {v : Json.Value}
    {items : List α} (h : list? read v = some items) {x : α} (hx : x ∈ items) :
    ∃ u, read u = some x := by
  unfold list? at h
  split at h
  · obtain ⟨u, -, hu⟩ := exists_of_mem_mapM h hx
    exact ⟨u, hu⟩
  · cases h

theorem inRange_of_cost {v : Json.Value} {c : Int} (h : cost? v = some c) : Cost.InRange c := by
  unfold cost? at h
  split at h
  · split at h
    · rename_i hrange
      cases h
      exact hrange
    · cases h
  · cases h

theorem inRange_edges {v : Json.Value} {d : Draft} (h : ofValue? v = some d) {row : List Int}
    (hrow : row ∈ d.edges) {c : Int} (hc : c ∈ row) : Cost.InRange c := by
  have hread : ∃ u, list? (list? cost?) u = some d.edges := by
    unfold ofValue? at h
    split at h
    · simp only [Option.bind_eq_bind, Option.bind_eq_some_iff, Option.some.injEq] at h
      obtain ⟨_, -, _, -, _, -, _, -, edges, hedges, rfl⟩ := h
      exact ⟨_, hedges⟩
    · simp only [Option.bind_eq_bind, Option.bind_eq_some_iff, Option.some.injEq] at h
      obtain ⟨_, -, _, -, _, -, _, -, _, -, edges, hedges, rfl⟩ := h
      obtain ⟨_, -, hedges⟩ := Option.bind_eq_some_iff.mp hedges
      obtain ⟨u, -, hedges⟩ := Option.bind_eq_some_iff.mp hedges
      exact ⟨u, hedges⟩
  obtain ⟨u, hu⟩ := hread
  obtain ⟨w, hw⟩ := exists_of_mem_list hu hrow
  obtain ⟨x, hx⟩ := exists_of_mem_list hw hc
  exact inRange_of_cost hx

/-- What the types of the fields say: the precedence is a dictionary, with no key repeated, and the
costs are 64-bit integers. -/
structure Typed (d : Draft) : Prop where
  keys : (d.precedence.map Prod.fst).Nodup
  inRange : ∀ row ∈ d.edges, ∀ c ∈ row, Cost.InRange c

/-- **Drafts that are read from a value are typed.** -/
theorem typed_of_ofValue? {v : Json.Value} {d : Draft} (h : ofValue? v = some d) : d.Typed where
  keys := keys_precedence h
  inRange _ hrow _ hc := inRange_edges h hrow hc

end Draft

/-! ## Roles -/

/-- Each depot has a label of its own. -/
theorem ofLabel_depot (label : String) :
    (Role.ofLabel? label = some .start ↔ label = startLabel) ∧
      (Role.ofLabel? label = some .finish ↔ label = finishLabel) := by
  have hne : startLabel ≠ finishLabel := by decide
  unfold Role.ofLabel?
  split_ifs <;> simp_all

namespace Instance

theorem rolesOf_eq_ok {seen labels : List String} {roles : List Role}
    (h : rolesOf seen labels = .ok roles) :
    labels.Nodup ∧ (∀ label ∈ labels, label ∉ seen) ∧
      List.Forall₂ (fun label role => Role.ofLabel? label = some role) labels roles := by
  induction labels generalizing seen roles with
  | nil =>
    cases h
    exact ⟨List.nodup_nil, fun _ h => (by cases h), .nil⟩
  | cons label more ih =>
    rw [rolesOf] at h
    split at h
    · cases h
    · rename_i hseen
      split at h
      · cases h
      · rename_i role hrole
        obtain ⟨rest, hrest, h⟩ := bind_eq_ok_iff.mp h
        cases h
        obtain ⟨hnodup, hnew, hall⟩ := ih hrest
        refine ⟨List.nodup_cons.mpr ⟨fun hm => hnew label hm List.mem_cons_self, hnodup⟩,
          fun other hother => ?_, .cons hrole hall⟩
        rcases List.mem_cons.mp hother with rfl | hother
        · exact hseen
        · exact fun hm => hnew other hother (List.mem_cons_of_mem _ hm)

theorem getElem?_of_idxOf? {labels : List String} {label : String} {a : Nat}
    (h : labels.idxOf? label = some a) : labels[a]? = some label := by
  obtain ⟨hlt, heq, -⟩ := List.idxOf?_eq_some_iff.mp h
  rw [List.getElem?_eq_getElem hlt, heq]

/-! ## Requests -/

/-- The entries with these keys have been read: partners are pickups and deliveries of each other,
except that a pickup forgets a delivery if it is given another one. -/
structure Paired (labels : List String) (roles : List Role) (keys : List String)
    (partners : List (Option Nat)) : Prop where
  length : partners.length = labels.length
  pickup : ∀ {a b : Nat}, partners[a]? = some (some b) → roles[a]? = some .pickup →
    roles[b]? = some .delivery ∧ ∃ key ∈ keys, labels[a]? = some key
  delivery : ∀ {a b : Nat}, partners[a]? = some (some b) → roles[a]? = some .delivery →
    roles[b]? = some .pickup ∧ partners[b]? = some (some a)

variable {labels keys : List String} {roles : List Role} {partners partners' : List (Option Nat)}

theorem pairUp_eq_ok {entry : String × String}
    (h : pairUp labels roles partners entry = .ok partners') :
    ∃ p d, labels[p]? = some entry.1 ∧ labels[d]? = some entry.2 ∧ roles[p]? = some .pickup ∧
      roles[d]? = some .delivery ∧ partners' = (partners.set p (some d)).set d (some p) := by
  unfold pairUp at h
  split at h
  · cases h
  · cases h
  · rename_i p d hp hd
    split at h
    · rename_i hroles
      cases h
      exact ⟨p, d, getElem?_of_idxOf? hp, getElem?_of_idxOf? hd, hroles.1, hroles.2, rfl⟩
    · cases h

theorem getElem?_pair {p d : Nat} (hp : p < partners.length) (hd : d < partners.length) (a : Nat) :
    ((partners.set p (some d)).set d (some p))[a]? =
      if a = d then some (some p) else if a = p then some (some d) else partners[a]? := by
  rw [List.getElem?_set, List.getElem?_set, List.length_set]
  by_cases had : a = d
  · rw [if_pos had.symm, if_pos hd, if_pos had]
  · rw [if_neg (Ne.symm had), if_neg had]
    by_cases hap : a = p
    · rw [if_pos hap.symm, if_pos hp, if_pos hap]
    · rw [if_neg (Ne.symm hap), if_neg hap]

theorem Paired.pair (h : Paired labels roles keys partners) {key : String} (hnew : key ∉ keys)
    {p d : Nat} (hp : labels[p]? = some key) (hdlt : d < labels.length)
    (hpickup : roles[p]? = some .pickup) (hdelivery : roles[d]? = some .delivery) :
    Paired labels roles (key :: keys) ((partners.set p (some d)).set d (some p)) := by
  have hget := getElem?_pair (h.length ▸ (List.getElem?_eq_some_iff.mp hp).1) (h.length ▸ hdlt)
  refine ⟨by rw [List.length_set, List.length_set, h.length], fun {a b} hab ha => ?_,
    fun {a b} hab ha => ?_⟩
  · rw [hget] at hab
    split_ifs at hab with had hap
    · rw [had, hdelivery] at ha
      cases ha
    · cases hab
      exact ⟨hdelivery, key, List.mem_cons_self, hap ▸ hp⟩
    · obtain ⟨hb, other, hother, hlabel⟩ := h.pickup hab ha
      exact ⟨hb, other, List.mem_cons_of_mem _ hother, hlabel⟩
  · rw [hget] at hab ⊢
    split_ifs at hab with had hap
    · cases hab
      have hpd : p ≠ d := by
        rintro rfl
        rw [hpickup] at hdelivery
        cases hdelivery
      rw [if_neg hpd, if_pos rfl, had]
      exact ⟨hpickup, rfl⟩
    · rw [hap, hpickup] at ha
      cases ha
    · obtain ⟨hb, hba⟩ := h.delivery hab ha
      -- the entry of `b` came before this one
      have hbp : b ≠ p := by
        rintro rfl
        obtain ⟨-, other, hother, hlabel⟩ := h.pickup hba hb
        rw [hp, Option.some.injEq] at hlabel
        exact hnew (hlabel ▸ hother)
      have hbd : b ≠ d := by
        rintro rfl
        rw [hdelivery] at hb
        cases hb
      rw [if_neg hbd, if_neg hbp]
      exact ⟨hb, hba⟩

theorem Paired.step (h : Paired labels roles keys partners) {entry : String × String}
    (hnew : entry.1 ∉ keys) (hentry : pairUp labels roles partners entry = .ok partners') :
    Paired labels roles (entry.1 :: keys) partners' := by
  obtain ⟨p, d, hp, hd, hpickup, hdelivery, rfl⟩ := pairUp_eq_ok hentry
  exact h.pair hnew hp (List.getElem?_eq_some_iff.mp hd).1 hpickup hdelivery

/-- **All entries of a dictionary have been read.** -/
theorem Paired.foldlM (h : Paired labels roles keys partners) {entries : List (String × String)}
    (hkeys : (entries.map Prod.fst).Nodup) (hnew : ∀ entry ∈ entries, entry.1 ∉ keys)
    (hentries : entries.foldlM (pairUp labels roles) partners = .ok partners') :
    ∃ keys', Paired labels roles keys' partners' := by
  induction entries generalizing keys partners with
  | nil =>
    cases hentries
    exact ⟨keys, h⟩
  | cons entry entries ih =>
    rw [List.foldlM_cons] at hentries
    obtain ⟨next, hnext, hentries⟩ := bind_eq_ok_iff.mp hentries
    rw [List.map_cons, List.nodup_cons] at hkeys
    refine ih (h.step (hnew entry List.mem_cons_self) hnext) hkeys.2 (fun other hother => ?_)
      hentries
    rw [List.mem_cons, not_or]
    exact ⟨fun he => hkeys.1 (List.mem_map.mpr ⟨other, hother, he⟩),
      hnew other (List.mem_cons_of_mem _ hother)⟩

theorem paired_replicate : Paired labels roles [] (List.replicate labels.length none) := by
  refine ⟨List.length_replicate, fun {a b} hab _ => ?_, fun {a b} hab _ => ?_⟩
  all_goals
    rw [List.getElem?_replicate] at hab
    split at hab <;> cases hab

/-! ## Well-formed instances -/

/-- What acceptance guarantees of an instance. -/
structure WellFormed (P : Instance) : Prop where
  lt_of_role : ∀ {a r}, P.role? a = some r → a < P.size
  exists_role : ∀ {a}, a < P.size → ∃ r, P.role? a = some r
  start_iff : ∀ {a}, P.role? a = some .start ↔ a = P.start
  finish_iff : ∀ {a}, P.role? a = some .finish ↔ a = P.finish
  delivers : ∀ {p d}, P.deliveryOf p = some d → P.role? d = some .delivery
  exists_delivery : ∀ {p}, P.role? p = some .pickup → ∃ d, P.deliveryOf p = some d
  exists_pickup : ∀ {d}, P.role? d = some .delivery → ∃ p, P.deliveryOf p = some d

/-- No two pickups share a delivery. -/
def OneToOne (P : Instance) : Prop :=
  ∀ a b d, P.deliveryOf a = some d → P.deliveryOf b = some d → a = b

/-- An instance with the roles and the partners that the nodes of a draft have. -/
structure Reads (d : Draft) (roles : List Role) (partners : List (Option Nat)) (P : Instance) :
    Prop where
  nodup : d.nodes.Nodup
  told : List.Forall₂ (fun label role => Role.ofLabel? label = some role) d.nodes roles
  paired : ∃ keys, Paired d.nodes roles keys partners
  complete : ∀ a < d.nodes.length, isUnpaired roles partners a = false
  start : d.nodes.idxOf? startLabel = some P.start
  finish : d.nodes.idxOf? finishLabel = some P.finish
  labels_eq : P.labels = d.nodes.toArray
  roles_eq : P.roles = roles.toArray
  partners_eq : P.partners = partners.toArray

/-- The draft has passed every check, and `P` is the instance it describes. -/
structure Accepted (d : Draft) (roles : List Role) (partners : List (Option Nat)) (P : Instance) :
    Prop where
  edges : d.edges.length = d.nodes.length
  row : ∀ row ∈ d.edges, row.length = d.nodes.length
  told : rolesOf [] d.nodes = .ok roles
  start : d.nodes.idxOf? startLabel = some P.start
  finish : d.nodes.idxOf? finishLabel = some P.finish
  pairs : d.precedence.foldlM (pairUp d.nodes roles) (List.replicate d.nodes.length none) =
    .ok partners
  complete : ∀ a < d.nodes.length, isUnpaired roles partners a = false
  labels_eq : P.labels = d.nodes.toArray
  roles_eq : P.roles = roles.toArray
  partners_eq : P.partners = partners.toArray
  costs_eq : P.costs = (d.edges.map List.toArray).toArray

theorem accepted_of_ofDraft {d : Draft} {P : Instance} (h : ofDraft d = .ok P) :
    ∃ roles partners, Accepted d roles partners P := by
  simp only [ofDraft] at h
  split at h
  · cases h
  · rename_i hsquare
    rw [not_or, not_not] at hsquare
    obtain ⟨roles, hroles, h⟩ := bind_eq_ok_iff.mp h
    split at h
    · rename_i start hstart
      split at h
      · rename_i finish hfinish
        obtain ⟨partners, hpartners, h⟩ := bind_eq_ok_iff.mp h
        split at h
        · cases h
        · rename_i hfind
          cases h
          refine ⟨roles, partners, hsquare.1, fun row hrow => ?_, hroles, hstart, hfinish,
            hpartners, fun a ha => ?_, rfl, rfl, rfl, rfl⟩
          · exact not_not.mp fun hne => hsquare.2 ⟨row, hrow, hne⟩
          · exact Bool.eq_false_iff.mpr (List.find?_eq_none.mp hfind a (List.mem_range.mpr ha))
      · cases h
    · cases h

theorem Accepted.reads {d : Draft} {P : Instance} (h : Accepted d roles partners P)
    (hkeys : (d.precedence.map Prod.fst).Nodup) : Reads d roles partners P := by
  obtain ⟨hnodup, -, htold⟩ := rolesOf_eq_ok h.told
  exact ⟨hnodup, htold, paired_replicate.foldlM hkeys (fun _ _ hm => by cases hm) h.pairs,
    h.complete, h.start, h.finish, h.labels_eq, h.roles_eq, h.partners_eq⟩

/-- **An instance that a text writes comes from a typed draft** that was accepted. -/
theorem exists_typed {text : String} {P : Instance} (h : ofText text = .ok P) :
    ∃ v d, Json.Value.ofText? text = some v ∧ Draft.ofValue? v = some d ∧ d.Typed ∧
      ofDraft d = .ok P := by
  unfold ofText at h
  split at h
  · cases h
  · rename_i v hv
    unfold ofValue at h
    split at h
    · cases h
    · rename_i d hd
      cases hdraft : ofDraft d with
      | error e =>
        rw [hdraft] at h
        cases h
      | ok Q =>
        rw [hdraft] at h
        cases h
        exact ⟨v, d, hv, hd, Draft.typed_of_ofValue? hd, hdraft⟩

/-- The role of a node is the one that its label tells. -/
theorem getElem?_roles {labels : List String} {roles : List Role}
    (h : List.Forall₂ (fun label role => Role.ofLabel? label = some role) labels roles) (a : Nat) :
    roles[a]? = labels[a]?.bind Role.ofLabel? := by
  induction h generalizing a with
  | nil => rfl
  | cons hrole _ ih =>
    cases a with
    | zero => exact hrole.symm
    | succ a => exact ih a

namespace Reads

variable {d : Draft} {P : Instance} {a b : Nat} {role : Role}

theorem size (h : Reads d roles partners P) : P.size = d.nodes.length := by
  rw [Instance.size, h.labels_eq, List.size_toArray]

theorem role? (h : Reads d roles partners P) (a : Nat) : P.role? a = roles[a]? := by
  rw [Instance.role?, h.roles_eq, List.getElem?_toArray]

theorem lt (h : Reads d roles partners P) (ha : roles[a]? = some role) : a < P.size := by
  rw [h.size, h.told.length_eq]
  exact (List.getElem?_eq_some_iff.mp ha).1

theorem deliveryOf_eq_some_iff (h : Reads d roles partners P) :
    P.deliveryOf a = some b ↔ roles[a]? = some .pickup ∧ partners[a]? = some (some b) := by
  rw [deliveryOf, isPickup, h.role?, h.partners_eq, Array.getD_eq_getD_getElem?,
    List.getElem?_toArray]
  cases partners[a]? <;> simp

theorem exists_partner (h : Reads d roles partners P) (ha : roles[a]? = some role)
    (hrole : role = .pickup ∨ role = .delivery) : ∃ b, partners[a]? = some (some b) := by
  have hpair := h.complete a (h.size ▸ h.lt ha)
  have hcond : (roles[a]? == some .pickup || roles[a]? == some .delivery) = true := by
    rw [ha]
    obtain rfl | rfl := hrole <;> rfl
  rw [isUnpaired, hcond, Bool.true_and] at hpair
  obtain ⟨b, hb⟩ := Option.isSome_iff_exists.mp (Option.isNone_eq_false_iff.mp hpair)
  exact ⟨b, Option.join_eq_some_iff.mp hb⟩

/-- A role that only one label tells is the role of one node. -/
theorem role_eq_iff (h : Reads d roles partners P) {label : String}
    (hlabel : ∀ other, Role.ofLabel? other = some role ↔ other = label)
    (hb : d.nodes.idxOf? label = some b) : P.role? a = some role ↔ a = b := by
  have hb' := getElem?_of_idxOf? hb
  rw [h.role?, getElem?_roles h.told, Option.bind_eq_some_iff]
  constructor
  · rintro ⟨other, ha, hrole⟩
    cases (hlabel other).mp hrole
    exact (List.getElem?_inj (List.getElem?_eq_some_iff.mp ha).1 h.nodup).mp (ha.trans hb'.symm)
  · rintro rfl
    exact ⟨label, hb', (hlabel label).mpr rfl⟩

theorem wellFormed (h : Reads d roles partners P) : P.WellFormed := by
  obtain ⟨keys, hpairs⟩ := h.paired
  constructor
  · intro a r ha
    exact h.lt (h.role? a ▸ ha)
  · intro a ha
    rw [h.size, h.told.length_eq] at ha
    exact ⟨roles[a], by rw [h.role?, List.getElem?_eq_getElem ha]⟩
  · exact h.role_eq_iff (fun other => (ofLabel_depot other).1) h.start
  · exact h.role_eq_iff (fun other => (ofLabel_depot other).2) h.finish
  · intro p d hpd
    obtain ⟨hp, hpd⟩ := h.deliveryOf_eq_some_iff.mp hpd
    rw [h.role?]
    exact (hpairs.pickup hpd hp).1
  · intro p hp
    rw [h.role?] at hp
    obtain ⟨b, hb⟩ := h.exists_partner hp (.inl rfl)
    exact ⟨b, h.deliveryOf_eq_some_iff.mpr ⟨hp, hb⟩⟩
  · intro a ha
    rw [h.role?] at ha
    obtain ⟨p, hp⟩ := h.exists_partner ha (.inr rfl)
    exact ⟨p, h.deliveryOf_eq_some_iff.mpr (hpairs.delivery hp ha)⟩

end Reads

variable {d : Draft} {P : Instance}

/-- **The instance of a typed draft is well-formed.** -/
theorem wellFormed_of_ofDraft (hd : d.Typed) (h : ofDraft d = .ok P) : P.WellFormed := by
  obtain ⟨_, _, haccepted⟩ := accepted_of_ofDraft h
  exact (haccepted.reads hd.keys).wellFormed

/-- **The costs of the instance of a typed draft are 64-bit integers.** -/
theorem inRange_cost (hd : d.Typed) (h : ofDraft d = .ok P) (a b : Nat) :
    Cost.InRange (P.cost a b) := by
  obtain ⟨_, _, haccepted⟩ := accepted_of_ofDraft h
  have hzero : Cost.InRange 0 := by decide
  simp only [cost, haccepted.costs_eq, Array.getD_eq_getD_getElem?, List.getElem?_toArray,
    List.getElem?_map]
  cases hrow : d.edges[a]? with
  | none => exact hzero
  | some row =>
    simp only [Option.map_some, Option.getD_some, List.getElem?_toArray]
    cases hc : row[b]? with
    | none => exact hzero
    | some c =>
      exact hd.inRange row (List.mem_of_getElem? hrow) c (List.mem_of_getElem? hc)

end Instance

/-! ## An instance -/

namespace Instance

/-- Two requests, and a dear way back from the end depot to the start. -/
def dearReturnDraft : Draft where
  name := ""
  comment := ""
  nodes := ["+0", "+1", "-1", "+2", "-2", "-0"]
  precedence := [("+1", "-1"), ("+2", "-2")]
  edges :=
    [[5, 0, 5, 1, 5, 5],
      [5, 5, 0, 5, 5, 5],
      [5, 5, 5, 5, 5, 0],
      [5, 5, 5, 5, 0, 5],
      [5, 0, 5, 5, 5, 0],
      [100, 5, 5, 5, 5, 5]]

/-- What the draft describes. -/
def dearReturn : Instance where
  name := ""
  comment := ""
  labels := #["+0", "+1", "-1", "+2", "-2", "-0"]
  roles := #[.start, .pickup, .delivery, .pickup, .delivery, .finish]
  partners := #[none, some 2, some 1, some 4, some 3, none]
  costs :=
    #[#[5, 0, 5, 1, 5, 5],
      #[5, 5, 0, 5, 5, 5],
      #[5, 5, 5, 5, 5, 0],
      #[5, 5, 5, 5, 0, 5],
      #[5, 0, 5, 5, 5, 0],
      #[100, 5, 5, 5, 5, 5]]
  start := 0
  finish := 5

theorem typed_dearReturn : dearReturnDraft.Typed where
  keys := by decide
  inRange := by decide

theorem ofDraft_dearReturn : ofDraft dearReturnDraft = .ok dearReturn := rfl

theorem wellFormed_dearReturn : dearReturn.WellFormed :=
  wellFormed_of_ofDraft typed_dearReturn ofDraft_dearReturn

end Instance

end Fathom.Routing
