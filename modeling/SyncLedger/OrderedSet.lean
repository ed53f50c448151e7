/-
  SyncLedger/OrderedSet.lean
  ==========================
  **Finite sets kept in order.**  A set is its list of elements, strictly increasing, so two
  sets with the same elements are the same value and a written set has one form only.

  Insertion needs nothing but transitivity to stay increasing; that the relation is a linear
  order matters only for what membership means.
-/
namespace SyncLedger

/-- A finite set: its elements, strictly increasing. -/
structure OrderedSet (α : Type) [LT α] where
  toList : List α
  increasing : toList.Pairwise (· < ·)

namespace OrderedSet

variable {α : Type} [LT α]

instance [DecidableEq α] : DecidableEq (OrderedSet α) := fun s t =>
  decidable_of_iff (s.toList = t.toList) (by cases s; cases t; simp)

def empty : OrderedSet α := ⟨[], List.Pairwise.nil⟩

instance : Inhabited (OrderedSet α) := ⟨empty⟩

/-- Puts an element at its place; one that is there already stays as it is. -/
def insertIn [DecidableLT α] (x : α) : List α → List α
  | [] => [x]
  | y :: ys => if x < y then x :: y :: ys else if y < x then y :: insertIn x ys else y :: ys

theorem mem_of_mem_insertIn [DecidableLT α] {x z : α} {ys : List α} (h : z ∈ insertIn x ys) :
    z = x ∨ z ∈ ys := by
  induction ys with
  | nil => simpa [insertIn] using h
  | cons y ys ih =>
    unfold insertIn at h
    split at h
    · simpa using h
    · split at h
      · rcases List.mem_cons.1 h with rfl | h
        · simp
        · rcases ih h with rfl | h <;> simp [*]
      · exact Or.inr h

theorem pairwise_insertIn [DecidableLT α] [Trans (α := α) (· < ·) (· < ·) (· < ·)] (x : α)
    {ys : List α} (h : ys.Pairwise (· < ·)) : (insertIn x ys).Pairwise (· < ·) := by
  induction ys with
  | nil => simp [insertIn]
  | cons y ys ih =>
    have ⟨hy, hys⟩ := List.pairwise_cons.1 h
    unfold insertIn
    split
    · rename_i hxy
      refine List.pairwise_cons.2 ⟨fun z hz => ?_, h⟩
      rcases List.mem_cons.1 hz with rfl | hz
      · exact hxy
      · exact Trans.trans hxy (hy z hz)
    · split
      · rename_i hyx
        refine List.pairwise_cons.2 ⟨fun z hz => ?_, ih hys⟩
        rcases mem_of_mem_insertIn hz with rfl | hz
        · exact hyx
        · exact hy z hz
      · exact h

section

variable [DecidableLT α] [Trans (α := α) (· < ·) (· < ·) (· < ·)]

def insert (s : OrderedSet α) (x : α) : OrderedSet α :=
  ⟨insertIn x s.toList, pairwise_insertIn x s.increasing⟩

/-- The set of a list's elements, in any order and with any repetition. -/
def ofList (xs : List α) : OrderedSet α := xs.foldl insert empty

end

/-- Texts in the order of their characters. -/
instance : Trans (α := String) (· < ·) (· < ·) (· < ·) := ⟨fun h k => String.lt_trans h k⟩

def contains [BEq α] (s : OrderedSet α) (x : α) : Bool := s.toList.contains x

instance : Membership α (OrderedSet α) := ⟨fun s x => x ∈ s.toList⟩

def erase [BEq α] (s : OrderedSet α) (x : α) : OrderedSet α :=
  ⟨s.toList.filter (· != x), s.increasing.filter _⟩

end OrderedSet

end SyncLedger
