/-
  SyncLedger/Table.lean
  =====================
  **Ordered tables.**  A table is the list of its entries, strictly increasing in their keys.
  The list is the view: two tables with the same entries are the same table, scans are
  filters of it, and "the last entry under a prefix" is the last element of such a filter.

  Main statements: `insert` and `eraseAll` keep the order (they build the proof field), and
  `get?_insert`, `get?_eraseAll` say what they do to every key.
-/
import SyncLedger.Bytes

namespace SyncLedger

/-- A finite map from byte strings, kept in key order. -/
structure Table (β : Type) where
  entries : List (Bytes × β)
  ordered : entries.Pairwise (fun a b => a.1 < b.1)

namespace Table

variable {β : Type}

instance [DecidableEq β] : DecidableEq (Table β) := fun s t =>
  decidable_of_iff (s.entries = t.entries) (by cases s; cases t; simp)

def empty : Table β := ⟨[], List.Pairwise.nil⟩

instance : Inhabited (Table β) := ⟨empty⟩

/-! ### Looking up -/

def lookupIn (k : Bytes) : List (Bytes × β) → Option β
  | [] => none
  | e :: es => if k = e.1 then some e.2 else lookupIn k es

def get? (t : Table β) (k : Bytes) : Option β := lookupIn k t.entries

def contains (t : Table β) (k : Bytes) : Bool := (t.get? k).isSome

def size (t : Table β) : Nat := t.entries.length

/-- The entries whose key starts with `p`, in key order. -/
def under (t : Table β) (p : Bytes) : List (Bytes × β) := t.entries.filter (p.isPrefixOf ·.1)

/-- The keys that start with `p`, in key order. -/
def keysUnder (t : Table β) (p : Bytes) : List Bytes := (t.under p).map (·.1)

/-- The entry with the greatest key under `p`. -/
def lastUnder? (t : Table β) (p : Bytes) : Option (Bytes × β) := (t.under p).getLast?

/-! ### Writing -/

/-- Puts an entry at its place in the order, over one that has its key. -/
def insertIn (k : Bytes) (v : β) : List (Bytes × β) → List (Bytes × β)
  | [] => [(k, v)]
  | e :: es =>
    if k < e.1 then (k, v) :: e :: es
    else if k = e.1 then (k, v) :: es
    else e :: insertIn k v es

theorem key_of_mem_insertIn {k : Bytes} {v : β} {es : List (Bytes × β)} {x : Bytes × β}
    (h : x ∈ insertIn k v es) : x.1 = k ∨ x ∈ es := by
  induction es with
  | nil => simp only [insertIn, List.mem_singleton] at h; exact Or.inl (congrArg (·.1) h)
  | cons e es ih =>
    unfold insertIn at h
    split at h
    · rcases List.mem_cons.1 h with rfl | h
      · exact Or.inl rfl
      · exact Or.inr h
    · split at h
      · rcases List.mem_cons.1 h with rfl | h
        · exact Or.inl rfl
        · exact Or.inr (List.mem_cons_of_mem _ h)
      · rcases List.mem_cons.1 h with rfl | h
        · exact Or.inr List.mem_cons_self
        · exact (ih h).imp_right (List.mem_cons_of_mem _)

/-- Of two different keys one comes first. -/
theorem lt_of_not_lt_of_ne {k l : Bytes} (h : ¬ k < l) (hne : k ≠ l) : l < k := by
  rcases List.le_iff_lt_or_eq.1 (List.not_lt.1 h) with hlt | heq
  · exact hlt
  · exact absurd heq.symm hne

theorem pairwise_insertIn (k : Bytes) (v : β) {es : List (Bytes × β)}
    (h : es.Pairwise (fun a b => a.1 < b.1)) :
    (insertIn k v es).Pairwise (fun a b => a.1 < b.1) := by
  induction es with
  | nil => simp [insertIn]
  | cons e es ih =>
    have ⟨he, hes⟩ := List.pairwise_cons.1 h
    unfold insertIn
    split
    · rename_i hke
      refine List.pairwise_cons.2 ⟨fun x hx => ?_, h⟩
      rcases List.mem_cons.1 hx with rfl | hx
      · exact hke
      · exact List.lt_trans hke (he x hx)
    · split
      · rename_i hke
        exact List.pairwise_cons.2 ⟨fun x hx => hke ▸ he x hx, hes⟩
      · rename_i hnlt hne
        refine List.pairwise_cons.2 ⟨fun x hx => ?_, ih hes⟩
        rcases key_of_mem_insertIn hx with hk | hx
        · exact hk ▸ lt_of_not_lt_of_ne hnlt hne
        · exact he x hx

def insert (t : Table β) (k : Bytes) (v : β) : Table β :=
  ⟨insertIn k v t.entries, pairwise_insertIn k v t.ordered⟩

/-- Removes every key of a list. -/
def eraseAll (t : Table β) (ks : List Bytes) : Table β :=
  ⟨t.entries.filter (fun e => !ks.contains e.1), t.ordered.filter _⟩

def erase (t : Table β) (k : Bytes) : Table β := t.eraseAll [k]

/-! ### What writing does to every key -/

theorem lookupIn_insertIn (k l : Bytes) (v : β) (es : List (Bytes × β)) :
    lookupIn l (insertIn k v es) = if l = k then some v else lookupIn l es := by
  induction es with
  | nil => simp [insertIn, lookupIn]
  | cons e es ih =>
    unfold insertIn
    split
    · simp [lookupIn]
    · split
      · rename_i hke
        by_cases h : l = k <;> simp [lookupIn, h, ← hke]
      · rename_i hke
        by_cases h : l = e.1
        · have hek : e.1 ≠ k := fun hek => hke hek.symm
          simp [lookupIn, h, hek]
        · simp [lookupIn, h, ih]

@[simp] theorem get?_insert (t : Table β) (k l : Bytes) (v : β) :
    (t.insert k v).get? l = if l = k then some v else t.get? l :=
  lookupIn_insertIn k l v t.entries

theorem lookupIn_filter (p : Bytes → Bool) (l : Bytes) (es : List (Bytes × β)) :
    lookupIn l (es.filter (fun e => p e.1)) = if p l then lookupIn l es else none := by
  induction es with
  | nil => simp [lookupIn]
  | cons e es ih =>
    by_cases hp : p e.1 = true
    · rw [List.filter_cons_of_pos (by exact hp)]
      by_cases h : l = e.1
      · simp [lookupIn, h, hp]
      · simp [lookupIn, h, ih]
    · rw [List.filter_cons_of_neg (by exact hp), ih]
      by_cases h : l = e.1
      · simp [h, hp]
      · simp [lookupIn, h]

@[simp] theorem get?_eraseAll (t : Table β) (ks : List Bytes) (l : Bytes) :
    (t.eraseAll ks).get? l = if ks.contains l then none else t.get? l := by
  have := lookupIn_filter (fun k => !ks.contains k) l t.entries
  simp only [get?, eraseAll, this]
  cases ks.contains l <;> simp

@[simp] theorem get?_erase (t : Table β) (k l : Bytes) :
    (t.erase k).get? l = if l = k then none else t.get? l := by
  by_cases h : l = k <;> simp [erase, h]

end Table

end SyncLedger
