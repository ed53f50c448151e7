/-
  SyncLedger/Proofs/Purging.lean
  ==============================
  **Purging batch by batch.**  A purge looks up the keys under its prefix again for every batch and
  ends when it finds none.  A batch takes the first of them (`Purging.Step`), so what is left after
  any number of batches is the table without an initial part of the keys (`commits_purgeRun`), and
  the number of batches is that of the keys divided by the size of a batch.  What a purge leaves and
  what it answers have nothing to do with that size; it only decides at which tables the purge can
  be cut short.
-/
import SyncLedger.Proofs.Operations
import Mathlib.Data.List.Chain
import Mathlib.Tactic

namespace SyncLedger

variable {p : Bytes} {batch m n : Nat}

namespace Table

variable {t : Records}

theorem eraseAll_eraseAll (t : Records) (ks ls : List Bytes) :
    (t.eraseAll ks).eraseAll ls = t.eraseAll (ks ++ ls) := by
  apply ext
  intro k
  simp only [get?_eraseAll, List.contains_eq_mem, List.mem_append]
  by_cases hk : k ∈ ks <;> by_cases hl : k ∈ ls <;> simp [hk, hl]

/-- The table without so many keys under a prefix, the first ones in key order. -/
def withoutFirst (t : Records) (p : Bytes) (n : Nat) : Records :=
  t.eraseAll ((t.keysUnder p).take n)

theorem get?_withoutFirst (t : Records) (p : Bytes) (n : Nat) (k : Bytes) :
    (t.withoutFirst p n).get? k = if k ∈ (t.keysUnder p).take n then none else t.get? k := by
  rw [withoutFirst, get?_eraseAll]
  simp only [List.contains_eq_mem, decide_eq_true_eq]

theorem keysUnder_withoutFirst (t : Records) (p : Bytes) (n : Nat) :
    (t.withoutFirst p n).keysUnder p = (t.keysUnder p).drop n :=
  keysUnder_batch t p n

/-- What is erased first and what is erased then are erased together. -/
theorem withoutFirst_withoutFirst (t : Records) (p : Bytes) (m n : Nat) :
    (t.withoutFirst p m).withoutFirst p n = t.withoutFirst p (m + n) := by
  rw [withoutFirst, keysUnder_withoutFirst, withoutFirst, eraseAll_eraseAll, withoutFirst,
    List.take_add]

theorem size_eraseUnder (t : Records) (p : Bytes) :
    (t.keysUnder p).length + (t.eraseUnder p).size = t.size := by
  rw [keysUnder, List.length_map]
  exact (List.length_eq_length_filter_add _).symm

end Table

namespace Purging

/-- One batch: it erases the first keys under the prefix, at least one and not more than `most`. -/
def Step (p : Bytes) (most : Nat) (s u : Records) : Prop :=
  ∃ gone, gone <+: s.keysUnder p ∧ gone ≠ [] ∧ gone.length ≤ most ∧ u = s.eraseAll gone

/-- The number of batches for so many keys. -/
def rounds (keys most : Nat) : Nat := (keys + most - 1) / most

theorem rounds_zero (h : 0 < m) : rounds 0 m = 0 :=
  Nat.div_eq_of_lt (by omega)

theorem rounds_pos (hn : 0 < n) (hm : 0 < m) : rounds n m = rounds (n - m) m + 1 := by
  unfold rounds
  rcases Nat.lt_or_ge m n with hlt | hge
  · have hsum : n + m - 1 = n - m + m - 1 + m := by omega
    rw [hsum, Nat.add_div_right _ hm]
  · have hlast : n + m - 1 = n - 1 + m := by omega
    have hrest : n - m + m - 1 < m := by omega
    rw [hlast, Nat.add_div_right _ hm, Nat.div_eq_of_lt hrest, Nat.div_eq_of_lt (by omega)]

/-- A batch of the size asked for is a step, if any keys are left. -/
theorem step_withoutFirst {s : Records} (h : (s.keysUnder p).take m ≠ []) :
    Step p m s (s.withoutFirst p m) :=
  ⟨_, List.take_prefix _ _, h, List.length_take_le _ _, rfl⟩

end Purging

open Purging

/-- After so many batches the table is without so many times the size of a batch of keys. -/
theorem commits_purgeRun (p : Bytes) (batch : Nat) (t : Records) :
    (purgeRun p batch t).1 =
      (List.range (rounds (t.keysUnder p).length (max 1 batch))).map fun i =>
        t.withoutFirst p ((i + 1) * max 1 batch) := by
  have hmost : 0 < max 1 batch := by omega
  fun_induction purgeRun p batch t with
  | case1 t hnone =>
    have hempty : t.keysUnder p = [] := by
      rcases List.take_eq_nil_iff.1 hnone with hzero | hempty
      · omega
      · exact hempty
    rw [hempty, List.length_nil, rounds_zero hmost]
    rfl
  | case2 t hsome ks after rest ih =>
    have hpos : 0 < (t.keysUnder p).length := by
      rw [List.length_pos_iff]
      intro hempty
      exact hsome (by rw [hempty, List.take_nil])
    have hafter : after = t.withoutFirst p (max 1 batch) := rfl
    show after :: (purgeRun p batch after).1 = _
    rw [ih, hafter, Table.keysUnder_withoutFirst, List.length_drop, rounds_pos hpos hmost,
      List.range_succ_eq_map, List.map_cons, List.map_map, Nat.zero_add, Nat.one_mul,
      List.cons_inj_right]
    apply List.map_congr_left
    intro i _
    have hsum : max 1 batch + (i + 1) * max 1 batch = (i + 1 + 1) * max 1 batch := by ring
    rw [Table.withoutFirst_withoutFirst, hsum]
    rfl

/-- Every commit of a purge is one batch after the commit before it. -/
theorem isChain_purgeRun (p : Bytes) (batch : Nat) (t : Records) :
    (t :: (purgeRun p batch t).1).IsChain (Step p (max 1 batch)) := by
  fun_induction purgeRun p batch t with
  | case1 t hnone => exact List.isChain_singleton t
  | case2 t hsome ks after rest ih => exact List.isChain_cons_cons.2 ⟨step_withoutFirst hsome, ih⟩

/-- **A purge is exact and comes to an end, in batches of any size.**  It takes as many batches as
    the keys under the prefix make, each of them a step from the commit before.  At the end exactly
    the keys that start with the prefix are gone, and their number is the answer.  After so many
    batches an initial part of the keys is gone, in key order, and nothing else has changed.  With
    batches of another size the answer and the table at the end are the same. -/
theorem purge_exact (p : Bytes) (batch : Nat) (t : Records) :
    let keys := t.keysUnder p
    let most := max 1 batch
    let run := Op.purge p batch t
    run.commits.length = rounds keys.length most ∧
    (t :: run.commits).IsChain (Step p most) ∧
    run.answer = .ok keys.length ∧ keys.length + (run.final t).size = t.size ∧
    (∀ k, (run.final t).get? k = if p <+: k then none else t.get? k) ∧
    (∀ i s, run.commits[i]? = some s →
      s.keysUnder p = keys.drop ((i + 1) * most) ∧
      ∀ k, s.get? k = if k ∈ keys.take ((i + 1) * most) then none else t.get? k) ∧
    ∀ other, (Op.purge p other).outcome t = (Op.purge p batch).outcome t := by
  intro keys most run
  have hcommits : run.commits = (List.range (rounds keys.length most)).map fun i =>
      t.withoutFirst p ((i + 1) * most) := commits_purgeRun p batch t
  have hfinal : run.final t = t.eraseUnder p := final_purgeRun p batch t
  refine ⟨?_, isChain_purgeRun p batch t, ?_, ?_, ?_, ?_, ?_⟩
  · rw [hcommits, List.length_map, List.length_range]
  · show Except.ok (purgeRun p batch t).2 = _
    rw [count_purgeRun]
    exact congrArg Except.ok (List.length_map _).symm
  · rw [hfinal]
    exact t.size_eraseUnder p
  · intro k
    rw [hfinal, Table.get?_eraseUnder]
  · intro i s hs
    rw [hcommits, List.getElem?_map, Option.map_eq_some_iff] at hs
    obtain ⟨j, hj, rfl⟩ := hs
    obtain rfl : j = i := by
      obtain ⟨hlt, rfl⟩ := List.getElem?_eq_some_iff.1 hj
      exact List.getElem_range _
    exact ⟨t.keysUnder_withoutFirst p _, t.get?_withoutFirst p _⟩
  · intro other
    rw [outcome_purge, outcome_purge]

/-- Three keys under a prefix go in two batches, the shortest key first, and in as many as there are
    keys where the batches are to have no size at all. -/
theorem purged_in_batches :
    let t : Records :=
      (((Table.empty.insert [2] [7]).insert [1, 1] [8]).insert [1] [9]).insert [1, 0] [6]
    (Op.purge [1] 2 t).commits.length = 2 ∧ (Op.purge [1] 0 t).commits.length = 3 ∧
      (Op.purge [1] 2 t).answer = .ok 3 ∧
      (∀ s, (Op.purge [1] 2 t).commits[0]? = some s →
        s.keysUnder [1] = [[1, 1]] ∧ s.get? [1, 0] = none ∧ s.get? [1, 1] = some [8]) ∧
      ((Op.purge [1] 2 t).final t).get? [1] = none ∧
      ((Op.purge [1] 2 t).final t).get? [2] = some [7] ∧
      (Op.purge [1] 0).outcome t = (Op.purge [1] 2).outcome t := by
  intro t
  have hkeys : t.keysUnder [1] = [[1], [1, 0], [1, 1]] := by decide
  obtain ⟨hrounds, -, hanswer, -, hfinal, hbatches, hsize⟩ := purge_exact [1] 2 t
  obtain ⟨hrounds', -⟩ := purge_exact [1] 0 t
  rw [hkeys] at hrounds hrounds' hanswer hbatches
  refine ⟨hrounds, hrounds', hanswer, fun s hs => ?_, ?_, ?_, hsize 0⟩
  · obtain ⟨hleft, hget⟩ := hbatches 0 s hs
    exact ⟨hleft, (hget [1, 0]).trans (by decide), (hget [1, 1]).trans (by decide)⟩
  · exact (hfinal [1]).trans (by decide)
  · exact (hfinal [2]).trans (by decide)

end SyncLedger
