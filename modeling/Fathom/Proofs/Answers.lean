import Mathlib.Data.List.Forall2

/-!
# Computations that answer

A computation of this library either answers or stops at a fault. These are the inversion lemmas for
chains and traversals of such computations: a chain answers iff each link does (`bind_eq_ok_iff`),
and a traversal answers iff it does at each item (`mapM_eq_ok_iff`). `foldlM_inv` carries an
invariant along a loop, from the step to the whole run, and shows that the run answers.
-/

namespace Fathom

variable {ε α β γ : Type}

theorem bind_eq_ok_iff {x : Except ε α} {f : α → Except ε β} {b : β} :
    x >>= f = .ok b ↔ ∃ a, x = .ok a ∧ f a = .ok b := by
  cases x with
  | error e => exact ⟨fun h => (by cases h), fun ⟨_, h, _⟩ => (by cases h)⟩
  | ok a => exact ⟨fun h => ⟨a, rfl, h⟩, fun ⟨_, h, hf⟩ => (by cases h; exact hf)⟩

theorem map_eq_ok_iff {x : Except ε α} {f : α → β} {b : β} :
    f <$> x = .ok b ↔ ∃ a, x = .ok a ∧ f a = b := by
  cases x with
  | error e => exact ⟨fun h => (by cases h), fun ⟨_, h, _⟩ => (by cases h)⟩
  | ok a =>
    exact ⟨fun h => ⟨a, rfl, Except.ok.inj h⟩, fun ⟨_, h, hf⟩ => (by cases h; exact congrArg _ hf)⟩

/-- What is built from an optional part answers iff the part does, if it is asked for. -/
theorem optional_eq_ok_iff {asked : Bool} {x : Except ε α} {f : Option α → β} {b : β} :
    (if asked then some <$> x >>= fun a => pure (f a) else pure none >>= fun a => pure (f a)) =
      .ok b ↔ ∃ a, (if asked then some <$> x else .ok none) = .ok a ∧ f a = b := by
  have hbuilt : ∀ {part : Except ε (Option α)},
      (part >>= fun a => pure (f a)) = .ok b ↔ ∃ a, part = .ok a ∧ f a = b :=
    bind_eq_ok_iff.trans (exists_congr fun _ => and_congr_right fun _ =>
      ⟨Except.ok.inj, congrArg Except.ok⟩)
  cases asked with
  | true => exact hbuilt
  | false => exact hbuilt

/-! ## Traversals -/

theorem mapM_eq_ok_iff {f : α → Except ε β} {items : List α} {answers : List β} :
    items.mapM f = .ok answers ↔ List.Forall₂ (fun a b => f a = .ok b) items answers := by
  induction items generalizing answers with
  | nil =>
    rw [List.mapM_nil, List.forall₂_nil_left_iff]
    exact ⟨fun h => (Except.ok.inj h).symm, fun h => h ▸ rfl⟩
  | cons a more ih =>
    rw [List.mapM_cons, bind_eq_ok_iff, List.forall₂_cons_left_iff]
    constructor
    · rintro ⟨b, hb, h⟩
      obtain ⟨rest, hrest, h⟩ := bind_eq_ok_iff.mp h
      exact ⟨b, rest, hb, ih.mp hrest, (Except.ok.inj h).symm⟩
    · rintro ⟨b, rest, hb, hrest, rfl⟩
      exact ⟨b, hb, bind_eq_ok_iff.mpr ⟨rest, ih.mpr hrest, rfl⟩⟩

theorem mapM_total {f : α → Except ε β} {items : List α} (h : ∀ a ∈ items, ∃ b, f a = .ok b) :
    ∃ answers, items.mapM f = .ok answers := by
  induction items with
  | nil => exact ⟨[], rfl⟩
  | cons a more ih =>
    obtain ⟨b, hb⟩ := h a List.mem_cons_self
    obtain ⟨rest, hrest⟩ := ih fun a ha => h a (List.mem_cons_of_mem _ ha)
    exact ⟨b :: rest, mapM_eq_ok_iff.mpr (.cons hb (mapM_eq_ok_iff.mp hrest))⟩

/-- A traversal that faults does so at one of its items. -/
theorem mapM_eq_error {f : α → Except ε β} {items : List α} {e : ε} (h : items.mapM f = .error e) :
    ∃ a ∈ items, f a = .error e := by
  induction items with
  | nil => cases h
  | cons a more ih =>
    rw [List.mapM_cons] at h
    cases ha : f a with
    | error e' =>
      rw [ha] at h
      cases h
      exact ⟨a, List.mem_cons_self, ha⟩
    | ok b =>
      rw [ha] at h
      cases hmore : more.mapM f with
      | error e' =>
        rw [hmore] at h
        cases h
        obtain ⟨a', ha', he⟩ := ih hmore
        exact ⟨a', List.mem_cons_of_mem _ ha', he⟩
      | ok rest =>
        rw [hmore] at h
        cases h

theorem mapM_eq_map {f : α → Except ε β} {g : α → β} {items : List α}
    (h : ∀ a ∈ items, f a = .ok (g a)) : items.mapM f = .ok (items.map g) := by
  rw [mapM_eq_ok_iff, List.forall₂_map_right_iff, List.forall₂_same]
  exact h

/-- **A loop answers and keeps an invariant** if each of its steps does; the invariant may depend on
the number of steps. -/
theorem foldlM_inv {P : Nat → β → Prop} {f : β → α → Except ε β} {items : List α} {b : β}
    (hb : P 0 b)
    (hstep : ∀ k b a, items[k]? = some a → P k b → ∃ b', f b a = .ok b' ∧ P (k + 1) b') :
    ∃ b', items.foldlM f b = .ok b' ∧ P items.length b' := by
  induction items generalizing b P with
  | nil => exact ⟨b, rfl, hb⟩
  | cons a more ih =>
    obtain ⟨b₁, hf, hb₁⟩ := hstep 0 b a rfl hb
    obtain ⟨b', hfold, hb'⟩ := ih (P := fun k => P (k + 1)) hb₁ fun k b a' ha' hk =>
      hstep (k + 1) b a' (by rw [List.getElem?_cons_succ, ha']) hk
    refine ⟨b', ?_, hb'⟩
    rw [List.foldlM_cons, hf]
    exact hfold

/-- What the items of a traversal that answered have in common. -/
theorem forall₂_mem_left {r : α → β → Prop} {items : List α} {answers : List β}
    (h : List.Forall₂ r items answers) {a : α} (ha : a ∈ items) : ∃ b ∈ answers, r a b := by
  induction h with
  | nil => cases ha
  | cons hr _ ih =>
    rcases List.mem_cons.mp ha with rfl | ha
    · exact ⟨_, List.mem_cons_self, hr⟩
    · obtain ⟨b, hb, hr⟩ := ih ha
      exact ⟨b, List.mem_cons_of_mem _ hb, hr⟩

theorem forall₂_mem_right {r : α → β → Prop} {items : List α} {answers : List β}
    (h : List.Forall₂ r items answers) {b : β} (hb : b ∈ answers) : ∃ a ∈ items, r a b :=
  forall₂_mem_left (List.Forall₂.flip (R := fun b a => r a b) h) hb

end Fathom
