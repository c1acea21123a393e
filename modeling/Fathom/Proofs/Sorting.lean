import Mathlib.Data.List.Sort

/-!
# Stable sorting

A list is sorted *stably* by a key when its entries come by increasing key, and those of one key in
the order in which they were given. Only one list is sorted so (`StablySorted.unique`), and merge
sort finds it (`stablySorted_mergeSort`).
-/

namespace Fathom

variable {α κ : Type} [LinearOrder κ] {key : α → κ} {given sorted sorted' : List α}

/-- `sorted` holds what was given, by increasing key, and entries of one key in the order given. -/
structure StablySorted (key : α → κ) (given sorted : List α) : Prop where
  increasing : sorted.Pairwise fun a b => key a ≤ key b
  ties : ∀ k, (sorted.filter fun a => decide (key a = k)) = given.filter fun a => decide (key a = k)

namespace StablySorted

theorem mem_iff (h : StablySorted key given sorted) (a : α) : a ∈ sorted ↔ a ∈ given := by
  have hties : a ∈ (sorted.filter fun b => decide (key b = key a)) ↔
      a ∈ given.filter fun b => decide (key b = key a) := by rw [h.ties]
  simpa using hties

/-- The key of the first entry is the least. -/
theorem key_le {a : α} (h : StablySorted key given (a :: sorted)) {b : α} (hb : b ∈ given) :
    key a ≤ key b := by
  rcases List.mem_cons.mp ((h.mem_iff b).mpr hb) with rfl | hb
  · exact le_refl _
  · exact (List.pairwise_cons.mp h.increasing).1 b hb

/-- A list whose first entry of the least key is `a` has `a` first when it is sorted. -/
theorem head?_eq_some {a : α} (h : StablySorted key given sorted)
    (hleast : ∀ b ∈ given, key a ≤ key b)
    (hfirst : given.find? (fun b => decide (key b = key a)) = some a) : sorted.head? = some a := by
  have ha : a ∈ given := List.mem_of_find?_eq_some hfirst
  cases sorted with
  | nil => exact absurd ((h.mem_iff a).mpr ha) List.not_mem_nil
  | cons b sorted =>
    have hkey : key b = key a :=
      le_antisymm (h.key_le ha) (hleast b ((h.mem_iff b).mp List.mem_cons_self))
    have hties := congrArg List.head? (h.ties (key a))
    rwa [List.filter_cons, if_pos (decide_eq_true hkey), List.head?_filter, hfirst] at hties

/-- The first entry of a list may be left out on both sides. -/
theorem tail {a : α} (h : StablySorted key (a :: given) (a :: sorted)) :
    StablySorted key given sorted := by
  refine ⟨(List.pairwise_cons.mp h.increasing).2, fun k => ?_⟩
  have hties := h.ties k
  by_cases hk : key a = k
  · simpa [List.filter_cons, hk] using hties
  · simpa [List.filter_cons, hk] using hties

/-- Entries of one key stand to each other as they were given. -/
theorem pairwise_ties {R : α → α → Prop} (h : StablySorted key given sorted)
    (hgiven : given.Pairwise R) : sorted.Pairwise fun a b => key a = key b → R a b := by
  have hties : ∀ k, (sorted.filter fun a => decide (key a = k)).Pairwise R := fun k => by
    rw [h.ties]
    exact hgiven.filter _
  clear h
  induction sorted with
  | nil => exact .nil
  | cons a sorted ih =>
    refine .cons (fun b hb hab => ?_) (ih fun k => ?_)
    · have hpairs := hties (key a)
      rw [List.filter_cons, if_pos (decide_eq_true rfl), List.pairwise_cons] at hpairs
      exact hpairs.1 b (List.mem_filter.mpr ⟨hb, decide_eq_true hab.symm⟩)
    · exact (hties k).sublist ((List.sublist_cons_self a sorted).filter _)

/-- A list that is sorted is left as it is. -/
theorem eq_given (h : StablySorted key given sorted)
    (hgiven : given.Pairwise fun a b => key a ≤ key b) : sorted = given := by
  induction sorted generalizing given with
  | nil =>
    refine (List.eq_nil_iff_forall_not_mem.mpr fun a ha => ?_).symm
    exact List.not_mem_nil ((h.mem_iff a).mpr ha)
  | cons a sorted ih =>
    cases given with
    | nil => exact absurd ((h.mem_iff a).mp List.mem_cons_self) List.not_mem_nil
    | cons b given =>
      have hself : StablySorted key (b :: given) (b :: given) := ⟨hgiven, fun _ => rfl⟩
      have hkey : key a = key b := le_antisymm (h.key_le List.mem_cons_self)
        (hself.key_le ((h.mem_iff a).mp List.mem_cons_self))
      obtain rfl : a = b := by
        have hties := h.ties (key b)
        simp only [List.filter_cons, hkey, decide_true, if_true] at hties
        exact (List.cons.inj hties).1
      rw [ih h.tail (List.pairwise_cons.mp hgiven).2]

/-- **There is one way to sort stably.** -/
theorem unique (h : StablySorted key given sorted) (h' : StablySorted key given sorted') :
    sorted = sorted' :=
  eq_given ⟨h.increasing, fun k => (h.ties k).trans (h'.ties k).symm⟩ h'.increasing

end StablySorted

/-- **Merge sort is stable.** -/
theorem stablySorted_mergeSort {le : α → α → Bool} (hle : ∀ a b, le a b = true ↔ key a ≤ key b)
    (given : List α) : StablySorted key given (given.mergeSort le) := by
  have htrans : ∀ a b c, le a b = true → le b c = true → le a c = true := by
    intro a b c hab hbc
    rw [hle] at hab hbc ⊢
    exact le_trans hab hbc
  have htotal : ∀ a b, (le a b || le b a) = true := by
    intro a b
    rw [Bool.or_eq_true, hle, hle]
    exact le_total _ _
  refine ⟨(List.pairwise_mergeSort htrans htotal given).imp fun hab => (hle _ _).mp hab,
    fun k => ?_⟩
  -- Entries of one key are in order among themselves, so sorting keeps them as they stand.
  have hordered : (given.filter fun a => decide (key a = k)).Pairwise fun a b => le a b = true := by
    refine List.pairwise_of_forall_mem_list fun a ha b hb => ?_
    rw [List.mem_filter, decide_eq_true_eq] at ha hb
    rw [hle, ha.2, hb.2]
  have hsub : (given.filter fun a => decide (key a = k)).Sublist
      ((given.mergeSort le).filter fun a => decide (key a = k)) := by
    have h := (List.sublist_mergeSort htrans htotal hordered List.filter_sublist).filter
      fun a => decide (key a = k)
    simpa only [List.filter_filter, Bool.and_self] using h
  have hlen := ((List.mergeSort_perm given le).filter fun a => decide (key a = k)).length_eq
  exact (hsub.eq_of_length hlen.symm).symm

end Fathom
