/-
  SyncLedger/Proofs/Sets.lean
  ===========================
  **Sets of names and the records that hold them.**  What insertion and erasure mean for
  membership rests on the order being linear: where neither of two elements comes first they are
  the same.  A set is read back as it was written because its elements come in order, and putting
  them in one after another appends each at the end (`ofList_toList`).

  From this a client and a root are read back as they were written, if the sizes of their texts
  and sets fit in eight bytes (`Client.Storable`, `Root.Storable`).
-/
import SyncLedger.Proofs.Codecs

namespace SyncLedger

namespace OrderedSet

variable {α : Type} [LT α] {s : OrderedSet α} {x z : α}

theorem mem_toList : x ∈ s.toList ↔ x ∈ s := Iff.rfl

@[simp] theorem not_mem_empty (x : α) : ¬ x ∈ (empty : OrderedSet α) := by
  rw [← mem_toList]
  exact List.not_mem_nil

theorem not_lt_of_lt [Trans (α := α) (· < ·) (· < ·) (· < ·)] [Std.Irrefl (α := α) (· < ·)]
    (h : x < z) : ¬ z < x := by
  intro hback
  exact Std.Irrefl.irrefl (r := (· < ·)) x (Trans.trans h hback)

/-! ### Erasure -/

/-- The set without some of its elements. -/
def without (s : OrderedSet α) (gone : α → Bool) : OrderedSet α :=
  ⟨s.toList.filter (!gone ·), s.increasing.filter _⟩

@[simp] theorem mem_without {gone : α → Bool} : z ∈ s.without gone ↔ z ∈ s ∧ gone z = false := by
  rw [← mem_toList, without, List.mem_filter, mem_toList, Bool.not_eq_true']

theorem length_without_le (s : OrderedSet α) (gone : α → Bool) :
    (s.without gone).toList.length ≤ s.toList.length :=
  List.length_filter_le _ _

theorem without_congr {p q : α → Bool} (h : ∀ z ∈ s, p z = q z) : s.without p = s.without q := by
  rw [without, without, mk.injEq]
  apply List.filter_congr
  intro z hz
  rw [h z hz]

theorem without_without (s : OrderedSet α) (p q : α → Bool) :
    (s.without p).without q = s.without fun z => p z || q z := by
  simp only [without, mk.injEq, List.filter_filter]
  apply List.filter_congr
  intro z _
  rw [Bool.not_or, Bool.and_comm]

theorem without_eq_self {gone : α → Bool} (h : ∀ z ∈ s, gone z = false) :
    s.without gone = s := by
  have hsame : s.toList.filter (!gone ·) = s.toList := by
    rw [List.filter_eq_self]
    intro z hz
    rw [h z hz]
    rfl
  cases s
  simpa [without] using hsame

section Erasure

variable [BEq α]

theorem erase_eq_without (s : OrderedSet α) (x : α) : s.erase x = s.without (· == x) := rfl

variable [LawfulBEq α]

@[simp] theorem contains_iff : s.contains x = true ↔ x ∈ s := List.contains_iff_mem

theorem contains_eq_false_iff : s.contains x = false ↔ ¬ x ∈ s := by
  rw [← contains_iff, Bool.not_eq_true]

@[simp] theorem mem_erase : z ∈ s.erase x ↔ z ∈ s ∧ z ≠ x := by
  rw [erase_eq_without, mem_without, beq_eq_false_iff_ne]

theorem erase_of_not_mem (h : ¬ x ∈ s) : s.erase x = s := by
  apply without_eq_self
  intro z hz
  rw [beq_eq_false_iff_ne]
  rintro rfl
  exact h hz

end Erasure

/-! ### Insertion -/

section Insertion

variable [DecidableLT α]

theorem length_insertIn_le (x : α) (ys : List α) : (insertIn x ys).length ≤ ys.length + 1 := by
  induction ys with
  | nil => simp [insertIn]
  | cons y ys ih =>
    unfold insertIn
    split
    · simp
    · split
      · simpa using ih
      · simp

theorem mem_insertIn [Std.Trichotomous (α := α) (· < ·)] {ys : List α} :
    z ∈ insertIn x ys ↔ z = x ∨ z ∈ ys := by
  refine ⟨mem_of_mem_insertIn, ?_⟩
  induction ys with
  | nil => simp [insertIn]
  | cons y ys ih =>
    intro h
    unfold insertIn
    split
    · exact List.mem_cons.2 h
    · rename_i hxy
      split
      · rcases h with rfl | h
        · exact List.mem_cons_of_mem y (ih (Or.inl rfl))
        · rcases List.mem_cons.1 h with rfl | h
          · exact List.mem_cons_self
          · exact List.mem_cons_of_mem y (ih (Or.inr h))
      · rename_i hyx
        obtain rfl : x = y := Std.Trichotomous.trichotomous x y hxy hyx
        rcases h with rfl | h
        · exact List.mem_cons_self
        · exact h

variable [Trans (α := α) (· < ·) (· < ·) (· < ·)]

theorem length_insert_le (s : OrderedSet α) (x : α) :
    (s.insert x).toList.length ≤ s.toList.length + 1 :=
  length_insertIn_le x s.toList

@[simp] theorem mem_insert [Std.Trichotomous (α := α) (· < ·)] :
    z ∈ s.insert x ↔ z = x ∨ z ∈ s :=
  mem_insertIn

theorem mem_foldl_insert {xs : List α} (h : z ∈ xs.foldl insert s) : z ∈ s ∨ z ∈ xs := by
  induction xs generalizing s with
  | nil => exact Or.inl h
  | cons x xs ih =>
    rcases ih h with h | h
    · rcases mem_of_mem_insertIn h with rfl | h
      · exact Or.inr List.mem_cons_self
      · exact Or.inl h
    · exact Or.inr (List.mem_cons_of_mem x h)

theorem mem_foldl_insert_iff [Std.Trichotomous (α := α) (· < ·)] {xs : List α} :
    z ∈ xs.foldl insert s ↔ z ∈ s ∨ z ∈ xs := by
  induction xs generalizing s with
  | nil => simp
  | cons x xs ih => rw [List.foldl_cons, ih, mem_insert, List.mem_cons, or_left_comm, or_assoc]

theorem mem_ofList [Std.Trichotomous (α := α) (· < ·)] {xs : List α} : z ∈ ofList xs ↔ z ∈ xs := by
  rw [ofList, mem_foldl_insert_iff, or_iff_right (not_mem_empty z)]

/-- A set of a list's elements has no others. -/
theorem mem_of_mem_ofList {xs : List α} (h : z ∈ ofList xs) : z ∈ xs :=
  (mem_foldl_insert h).resolve_left (not_mem_empty z)

theorem length_foldl_insert_le (s : OrderedSet α) (xs : List α) :
    (xs.foldl insert s).toList.length ≤ s.toList.length + xs.length := by
  induction xs generalizing s with
  | nil => exact Nat.le_refl _
  | cons x xs ih =>
    have hrest := ih (s.insert x)
    have hfirst := s.length_insert_le x
    rw [List.foldl_cons, List.length_cons]
    omega

theorem length_ofList_le (xs : List α) : (ofList xs).toList.length ≤ xs.length := by
  have hlength := length_foldl_insert_le (empty : OrderedSet α) xs
  rwa [show (empty : OrderedSet α).toList = [] from rfl, List.length_nil, Nat.zero_add] at hlength

variable [Std.Irrefl (α := α) (· < ·)]

theorem insertIn_of_forall_lt {ys : List α} (h : ∀ y ∈ ys, y < x) : insertIn x ys = ys ++ [x] := by
  induction ys with
  | nil => rfl
  | cons y ys ih =>
    have hyx : y < x := h y List.mem_cons_self
    have hrest := ih fun z hz => h z (List.mem_cons_of_mem y hz)
    simp [insertIn, not_lt_of_lt hyx, hyx, hrest]

theorem insertIn_of_mem {ys : List α} (hys : ys.Pairwise (· < ·)) (h : x ∈ ys) :
    insertIn x ys = ys := by
  induction ys with
  | nil => contradiction
  | cons y ys ih =>
    obtain ⟨hfirst, hrest⟩ := List.pairwise_cons.1 hys
    rcases List.mem_cons.1 h with rfl | h
    · simp [insertIn, Std.Irrefl.irrefl (r := (· < ·)) x]
    · have hyx : y < x := hfirst x h
      simp [insertIn, not_lt_of_lt hyx, hyx, ih hrest h]

/-- Putting in what is there changes nothing. -/
theorem insert_of_mem (h : x ∈ s) : s.insert x = s := by
  have hsame := insertIn_of_mem s.increasing h
  cases s
  simpa [insert] using hsame

/-- Elements that come in order are put in one behind another. -/
theorem toList_foldl_insert {xs : List α} (h : (s.toList ++ xs).Pairwise (· < ·)) :
    (xs.foldl insert s).toList = s.toList ++ xs := by
  induction xs generalizing s with
  | nil => simp
  | cons x xs ih =>
    have hbefore : ∀ y ∈ s.toList, y < x := by
      intro y hy
      exact (List.pairwise_append.1 h).2.2 y hy x List.mem_cons_self
    have hinsert : (s.insert x).toList = s.toList ++ [x] := insertIn_of_forall_lt hbefore
    rw [List.foldl_cons, ih, hinsert, List.append_assoc, List.singleton_append]
    rwa [hinsert, List.append_assoc, List.singleton_append]

theorem ofList_toList (s : OrderedSet α) : ofList s.toList = s := by
  have hsame : (ofList s.toList).toList = s.toList := toList_foldl_insert s.increasing
  cases s
  rw [mk.injEq]
  exact hsame

end Insertion

end OrderedSet

namespace Uuid

instance : Std.Irrefl (α := Uuid) (· < ·) := ⟨fun a => BitVec.lt_irrefl a.value⟩

instance : Std.Trichotomous (α := Uuid) (· < ·) := by
  constructor
  intro a b hab hba
  have hvalue : a.value = b.value := BitVec.le_antisymm (BitVec.not_lt.1 hba) (BitVec.not_lt.1 hab)
  cases a
  cases b
  exact congrArg Uuid.mk hvalue

end Uuid

/-! ### Stored forms -/

namespace Codec

variable {α : Type}

theorem decodeMany_flatMap {c : Codec α} {vs : List α} (h : ∀ v ∈ vs, c.Restores v)
    (rest : Bytes) : decodeMany c vs.length (vs.flatMap c.encode ++ rest) = some (vs, rest) := by
  induction vs with
  | nil => rfl
  | cons v vs ih =>
    have hfirst := h v List.mem_cons_self
    have hrest := ih fun w hw => h w (List.mem_cons_of_mem v hw)
    simp [decodeMany, List.append_assoc, hfirst _, hrest]

theorem restores_list {c : Codec α} {vs : List α} (h : ∀ v ∈ vs, c.Restores v)
    (hlength : vs.length < 2 ^ 64) : c.list.Restores vs := by
  intro rest
  have hcount := restores_word (n := 8) hlength (vs.flatMap c.encode ++ rest)
  simp [list, List.append_assoc, hcount, decodeMany_flatMap h]

theorem restores_set [LT α] [DecidableLT α] [Trans (α := α) (· < ·) (· < ·) (· < ·)]
    [Std.Irrefl (α := α) (· < ·)] {c : Codec α} {s : OrderedSet α} (h : ∀ v ∈ s, c.Restores v)
    (hsize : s.toList.length < 2 ^ 64) : c.set.Restores s :=
  (restores_list h hsize).via (congrArg some s.ofList_toList)

end Codec

/-- The texts of a client can be stored, and it is in at most `n` roots. -/
structure Client.Storable (n : Nat) (c : Client) : Prop where
  address : Held c.address
  roots : ∀ r ∈ c.roots, Held r
  size : c.roots.toList.length ≤ n
  registeredAt : c.registeredAt.Representable

/-- The texts of a root can be stored, and it has at most `n` members. -/
structure Root.Storable (n : Nat) (x : Root) : Prop where
  path : Held x.path
  owner : Held x.owner
  passwordHash : Held x.passwordHash
  size : x.members.toList.length ≤ n
  createdAt : x.createdAt.Representable

variable {m n : Nat}

theorem Client.Storable.mono {c : Client} (h : c.Storable n) (hnm : n ≤ m) : c.Storable m where
  address := h.address
  roots := h.roots
  size := h.size.trans hnm
  registeredAt := h.registeredAt

theorem Root.Storable.mono {x : Root} (h : x.Storable n) (hnm : n ≤ m) : x.Storable m where
  path := h.path
  owner := h.owner
  passwordHash := h.passwordHash
  size := h.size.trans hnm
  createdAt := h.createdAt

namespace Codec

theorem restores_client {c : Client} (h : c.Storable n) (hn : n < 2 ^ 64) : client.Restores c := by
  have hroots : text.set.Restores c.roots :=
    restores_set (fun r hr => restores_held (h.roots r hr)) (Nat.lt_of_le_of_lt h.size hn)
  unfold client
  refine Restores.via ?_ rfl
  exact (restores_uuid c.uuid).pair <| (restores_u64 c.ordinal).pair <|
    (restores_held h.address).pair <| hroots.pair (restores_instant h.registeredAt)

theorem restores_root {x : Root} (h : x.Storable n) (hn : n < 2 ^ 64) : root.Restores x := by
  have hmembers : uuid.set.Restores x.members :=
    restores_set (fun id _ => restores_uuid id) (Nat.lt_of_le_of_lt h.size hn)
  unfold root
  refine Restores.via ?_ rfl
  exact (restores_held h.path).pair <| (restores_held h.owner).pair <|
    (restores_held h.passwordHash).pair <| (restores_u64 x.epoch).pair <|
    hmembers.pair (restores_instant h.createdAt)

end Codec

end SyncLedger
