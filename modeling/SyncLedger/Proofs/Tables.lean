/-
  SyncLedger/Proofs/Tables.lean
  =============================
  **A table is what its lookups say.**  Two tables that answer alike for every key are the same
  table (`ext`), and the entries under a prefix depend on the keys under that prefix alone
  (`under_congr`), so what an operation leaves is described by its lookups throughout.

  A key beyond all others of a prefix is appended to what stands under it
  (`under_insert_of_forall_lt`), which is how versions of a path accumulate in order.
-/
import SyncLedger.Table
import Mathlib.Data.List.Sort
import Mathlib.Tactic

namespace SyncLedger.Table

variable {β : Type}

theorem lookupIn_eq_some_iff {es : List (Bytes × β)} (h : es.Pairwise (fun a b => a.1 < b.1))
    {k : Bytes} {v : β} : lookupIn k es = some v ↔ (k, v) ∈ es := by
  induction es with
  | nil => simp [lookupIn]
  | cons e es ih =>
    obtain ⟨hfirst, hrest⟩ := List.pairwise_cons.1 h
    unfold lookupIn
    split
    · rename_i hk
      subst hk
      have hnone : (e.1, v) ∉ es := fun hmem => List.lt_irrefl e.1 (hfirst (e.1, v) hmem)
      simp [hnone, Prod.ext_iff, eq_comm]
    · rename_i hk
      have hne : (k, v) ≠ e := fun heq => hk (congrArg Prod.fst heq)
      simp [hne, ih hrest]

theorem get?_eq_some_iff {t : Table β} {k : Bytes} {v : β} :
    t.get? k = some v ↔ (k, v) ∈ t.entries :=
  lookupIn_eq_some_iff t.ordered

theorem mem_under {t : Table β} {p : Bytes} {e : Bytes × β} :
    e ∈ t.under p ↔ p <+: e.1 ∧ t.get? e.1 = some e.2 := by
  simp [under, get?_eq_some_iff, and_comm]

theorem pairwise_under (t : Table β) (p : Bytes) :
    (t.under p).Pairwise (fun a b => a.1 < b.1) :=
  t.ordered.filter _

theorem contains_iff {t : Table β} {k : Bytes} : t.contains k = true ↔ ∃ v, t.get? k = some v :=
  Option.isSome_iff_exists

theorem contains_eq_false_iff {t : Table β} {k : Bytes} :
    t.contains k = false ↔ t.get? k = none := by
  simp [contains]

@[simp] theorem get?_empty (k : Bytes) : (empty : Table β).get? k = none := rfl

/-! ### Equality -/

/-- Entry lists in key order with the same members are the same list. -/
theorem eq_of_mem_iff {es fs : List (Bytes × β)} (he : es.Pairwise (fun a b => a.1 < b.1))
    (hf : fs.Pairwise (fun a b => a.1 < b.1)) (h : ∀ e, e ∈ es ↔ e ∈ fs) : es = fs := by
  have hirrefl : Std.Irrefl (fun a b : Bytes × β => a.1 < b.1) := ⟨fun _ => List.lt_irrefl _⟩
  have hanti : Std.Antisymm (fun a b : Bytes × β => a.1 < b.1) :=
    ⟨fun _ _ hab hba => absurd (List.lt_trans hab hba) (List.lt_irrefl _)⟩
  exact he.eq_of_mem_iff hf (fun {a} => h a)

/-- Tables that answer alike for every key are the same. -/
theorem ext {s t : Table β} (h : ∀ k, s.get? k = t.get? k) : s = t := by
  have hentries : s.entries = t.entries := by
    apply eq_of_mem_iff s.ordered t.ordered
    intro e
    rw [← get?_eq_some_iff (t := s), ← get?_eq_some_iff (t := t), h]
  cases s
  cases t
  simpa using hentries

theorem under_congr {s t : Table β} {p : Bytes} (h : ∀ k, p <+: k → s.get? k = t.get? k) :
    s.under p = t.under p := by
  apply eq_of_mem_iff (pairwise_under s p) (pairwise_under t p)
  intro e
  simp only [mem_under]
  exact and_congr_right fun hp => by rw [h e.1 hp]

/-- What stands under the wider of two prefixes decides what stands under the narrower. -/
theorem under_eq_filter (t : Table β) {x y : Bytes} (h : y <+: x) :
    t.under x = (t.under y).filter (x.isPrefixOf ·.1) := by
  rw [under, under, List.filter_filter]
  apply List.filter_congr
  intro e _
  rw [Bool.eq_iff_iff, Bool.and_eq_true, List.isPrefixOf_iff_prefix, List.isPrefixOf_iff_prefix]
  exact (and_iff_left_of_imp h.trans).symm

theorem under_eq_nil_iff {t : Table β} {p : Bytes} :
    t.under p = [] ↔ ∀ k, p <+: k → t.get? k = none := by
  rw [List.eq_nil_iff_forall_not_mem]
  constructor
  · intro h k hp
    cases hv : t.get? k with
    | none => rfl
    | some v => exact absurd (mem_under.2 ⟨hp, hv⟩) (h (k, v))
  · intro h e he
    obtain ⟨hp, hv⟩ := mem_under.1 he
    rw [h e.1 hp] at hv
    contradiction

/-- Every entry of the first table is one of the second. -/
def Sub (s t : Table β) : Prop := ∀ k v, s.get? k = some v → t.get? k = some v

theorem Sub.trans {s t u : Table β} (h : s.Sub t) (h' : t.Sub u) : s.Sub u :=
  fun k v hv => h' k v (h k v hv)

theorem Sub.get?_eq_none {s t : Table β} (h : s.Sub t) {k : Bytes} (hk : t.get? k = none) :
    s.get? k = none := by
  cases hs : s.get? k with
  | none => rfl
  | some v => exact absurd (hk ▸ h k v hs) (by simp)

theorem sub_erase (t : Table β) (k : Bytes) : (t.erase k).Sub t := by
  intro l v hl
  rw [get?_erase] at hl
  split at hl
  · contradiction
  · exact hl

theorem sub_eraseAll (t : Table β) (ks : List Bytes) : (t.eraseAll ks).Sub t := by
  intro k v hk
  rw [get?_eraseAll] at hk
  split at hk
  · contradiction
  · exact hk

/-- The only entry under a prefix. -/
theorem under_eq_singleton {t : Table β} {p k : Bytes} {v : β} (hk : p <+: k)
    (hv : t.get? k = some v) (hothers : ∀ l, p <+: l → l ≠ k → t.get? l = none) :
    t.under p = [(k, v)] := by
  apply eq_of_mem_iff (pairwise_under t p) (List.pairwise_singleton _ _)
  intro e
  rw [mem_under, List.mem_singleton]
  constructor
  · rintro ⟨hp, he⟩
    by_cases heq : e.1 = k
    · rw [heq, hv] at he
      exact Prod.ext heq (Option.some.inj he).symm
    · rw [hothers e.1 hp heq] at he
      contradiction
  · rintro rfl
    exact ⟨hk, hv⟩

theorem erase_eq_self {t : Table β} {k : Bytes} (h : t.get? k = none) : t.erase k = t := by
  apply ext
  intro l
  rw [get?_erase]
  split
  · rename_i hl
    rw [hl, h]
  · rfl

/-! ### Writing beyond the last key -/

theorem under_insert_of_forall_lt {t : Table β} {p k : Bytes} (v : β) (hk : p <+: k)
    (h : ∀ e ∈ t.under p, e.1 < k) : (t.insert k v).under p = t.under p ++ [(k, v)] := by
  refine eq_of_mem_iff (pairwise_under _ p) ?_ fun e => ?_
  · exact List.pairwise_append.2 ⟨pairwise_under t p, by simp, by simpa using h⟩
  · simp only [mem_under, get?_insert, List.mem_append, List.mem_singleton]
    by_cases he : e.1 = k
    · have habsent : e ∉ t.under p := fun hmem => List.lt_irrefl e.1 (he ▸ h e hmem)
      rw [mem_under] at habsent
      simp only [he, if_true, hk, true_and] at habsent ⊢
      simp only [habsent, false_or]
      exact ⟨fun hv => Prod.ext he (Option.some.inj hv).symm, fun heq => by rw [heq]⟩
    · have hne : e ≠ (k, v) := fun heq => he (congrArg Prod.fst heq)
      simp [he, hne]

/-! ### Erasing what stands under a prefix -/

/-- The table without the keys that start with `p`. -/
def eraseUnder (t : Table β) (p : Bytes) : Table β :=
  ⟨t.entries.filter (fun e => !p.isPrefixOf e.1), t.ordered.filter _⟩

@[simp] theorem get?_eraseUnder (t : Table β) (p k : Bytes) :
    (t.eraseUnder p).get? k = if p <+: k then none else t.get? k := by
  have hfilter := lookupIn_filter (fun k => !p.isPrefixOf k) k t.entries
  simp only [get?, eraseUnder, hfilter]
  by_cases h : p <+: k
  · simp [h]
  · simp [h]

theorem sub_eraseUnder (t : Table β) (p : Bytes) : (t.eraseUnder p).Sub t := by
  intro k v hk
  rw [get?_eraseUnder] at hk
  split at hk
  · contradiction
  · exact hk

/-- What is erased under a prefix and what is left of a wider one make up what was there. -/
theorem length_under_eraseUnder (t : Table β) {x y : Bytes} (h : y <+: x) :
    (t.under x).length + ((t.eraseUnder x).under y).length = (t.under y).length := by
  have hleft : (t.eraseUnder x).under y = (t.under y).filter (!x.isPrefixOf ·.1) := by
    rw [under, under, eraseUnder, List.filter_filter, List.filter_filter]
    apply List.filter_congr
    intro e _
    exact Bool.and_comm _ _
  rw [under_eq_filter t h, hleft]
  exact (List.length_eq_length_filter_add _).symm

/-- What is erased apart from a prefix leaves what is under it. -/
theorem under_eraseUnder_apart (t : Table β) {x y : Bytes} (h : ∀ k, x <+: k → ¬ y <+: k) :
    (t.eraseUnder x).under y = t.under y := by
  apply under_congr
  intro k hk
  have hno : ¬ x <+: k := fun hx => h k hx hk
  rw [get?_eraseUnder, if_neg hno]

/-! ### Leaving keys out -/

/-- Keys that are left out of a scan are missing from it, and that is all. -/
theorem keysUnder_eq_filter {s t : Table β} {gone : Bytes → Bool}
    (h : ∀ k, s.get? k = if gone k then none else t.get? k) (x : Bytes) :
    s.keysUnder x = (t.keysUnder x).filter (!gone ·) := by
  have hunder : s.under x = (t.under x).filter (!gone ·.1) := by
    apply eq_of_mem_iff (pairwise_under s x) ((pairwise_under t x).filter _)
    intro e
    rw [List.mem_filter, mem_under, mem_under, h, and_assoc]
    apply and_congr_right
    intro _
    cases gone e.1 <;> simp
  rw [keysUnder, keysUnder, hunder, List.filter_map]
  rfl

/-- A number that makes up what was there with what is left is that of the keys left out. -/
theorem length_gone {s t : Table β} {gone : Bytes → Bool} {n : Nat} {x : Bytes}
    (h : ∀ k, s.get? k = if gone k then none else t.get? k)
    (hcount : n + (s.under x).length = (t.under x).length) :
    n = ((t.keysUnder x).filter gone).length := by
  have hleft := congrArg List.length (keysUnder_eq_filter h x)
  have hall := List.length_eq_length_filter_add (l := t.keysUnder x) gone
  simp only [keysUnder, List.length_map] at hleft hall ⊢
  omega

end SyncLedger.Table
