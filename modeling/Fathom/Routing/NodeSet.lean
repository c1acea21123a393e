/-!
# Sets of nodes

A set of nodes is a bit mask. `mem_union`, `mem_diff`, `mem_ofPred` say what the operations do to
membership, `meets_iff` what it means to meet, and `ext` that membership is all there is to a set.
-/

namespace Fathom.Routing

/-- A set of nodes. -/
structure NodeSet where
  /-- Bit `a` is set if `a` is a member. -/
  bits : Nat
  deriving DecidableEq

namespace NodeSet

instance : Membership Nat NodeSet where
  mem s a := s.bits.testBit a = true

instance (a : Nat) (s : NodeSet) : Decidable (a ∈ s) :=
  inferInstanceAs (Decidable (s.bits.testBit a = true))

/-- The set without members. -/
def empty : NodeSet := ⟨0⟩

/-- The set of one node. -/
def singleton (a : Nat) : NodeSet := ⟨1 <<< a⟩

/-- The members of either set. -/
def union (s t : NodeSet) : NodeSet := ⟨s.bits ||| t.bits⟩

/-- The members of the first set that are not in the second. -/
def diff (s t : NodeSet) : NodeSet := ⟨s.bits ^^^ (s.bits &&& t.bits)⟩

/-- The sets have a member in common. -/
def meets (s t : NodeSet) : Bool := (s.bits &&& t.bits) != 0

/-- The nodes below `n` with a property. -/
def ofPred (n : Nat) (p : Nat → Bool) : NodeSet :=
  ((List.range n).filter p).foldl (fun s a => s.union (singleton a)) empty

/-- The members below `n`, in order. -/
def members (n : Nat) (s : NodeSet) : List Nat := (List.range n).filter (· ∈ s)

theorem mem_def {a : Nat} {s : NodeSet} : a ∈ s ↔ s.bits.testBit a = true := Iff.rfl

theorem ext {s t : NodeSet} (h : ∀ a, a ∈ s ↔ a ∈ t) : s = t := by
  obtain ⟨s⟩ := s
  obtain ⟨t⟩ := t
  congr 1
  exact Nat.eq_of_testBit_eq fun a => Bool.eq_iff_iff.2 (h a)

@[simp] theorem not_mem_empty (a : Nat) : ¬a ∈ empty := by simp [mem_def, empty]

@[simp] theorem mem_singleton {a b : Nat} : a ∈ singleton b ↔ a = b := by
  simp [mem_def, singleton, Nat.one_shiftLeft, Nat.testBit_two_pow, eq_comm]

@[simp] theorem mem_union {a : Nat} {s t : NodeSet} : a ∈ s.union t ↔ a ∈ s ∨ a ∈ t := by
  simp [mem_def, union]

@[simp] theorem mem_diff {a : Nat} {s t : NodeSet} : a ∈ s.diff t ↔ a ∈ s ∧ ¬a ∈ t := by
  cases hs : s.bits.testBit a <;> cases ht : t.bits.testBit a <;> simp [mem_def, diff, hs, ht]

theorem meets_iff {s t : NodeSet} : s.meets t = true ↔ ∃ a, a ∈ s ∧ a ∈ t := by
  constructor
  · intro h
    obtain ⟨a, ha⟩ := Nat.exists_testBit_of_ne_zero (bne_iff_ne.1 h)
    exact ⟨a, by simpa [mem_def] using ha⟩
  · rintro ⟨a, hs, ht⟩
    refine bne_iff_ne.2 fun h => ?_
    have hbit : (s.bits &&& t.bits).testBit a = true := by
      rw [Nat.testBit_and, mem_def.1 hs, mem_def.1 ht]
      rfl
    simp [h] at hbit

theorem mem_foldl_singleton {a : Nat} {items : List Nat} {s : NodeSet} :
    a ∈ items.foldl (fun s b => s.union (singleton b)) s ↔ a ∈ s ∨ a ∈ items := by
  induction items generalizing s with
  | nil => simp
  | cons b items ih => simp [ih, or_assoc]

@[simp] theorem mem_ofPred {a n : Nat} {p : Nat → Bool} :
    a ∈ ofPred n p ↔ a < n ∧ p a = true := by
  simp [ofPred, mem_foldl_singleton]

@[simp] theorem mem_members {a n : Nat} {s : NodeSet} : a ∈ s.members n ↔ a < n ∧ a ∈ s := by
  simp [members]

end NodeSet

end Fathom.Routing
