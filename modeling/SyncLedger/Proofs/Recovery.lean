/-
  SyncLedger/Proofs/Recovery.lean
  ===============================
  **An interrupted removal is finished exactly.**  A removal commits many tables on its way:
  the one in which its object is detached and marked, one for each batch, and one without the
  marker.  Whichever of them a crash leaves, recovery leads to the table that the removal would
  have left, and each table that recovery commits is again one from which recovery leads there
  (`Underway.recover`), so recovery may itself be cut short any number of times
  (`Underway.of_interrupted`).

  The invariant is `Removal.Underway`.  Until the end the marker is there, and the table is
  the final one but for the marker and the keys that are being purged.  That the marker goes
  last is what makes the purge repeatable.
-/
import Mathlib.Logic.Relation
import SyncLedger.Engine
import SyncLedger.Proofs.Removals

namespace SyncLedger

variable {t s u : Records} {r p : String} {batch : Nat}

/-- What is removed with all that belongs to it: a root, or one path. -/
inductive Removal where
  | root (root : String)
  | path (root path : String)
  deriving DecidableEq

namespace Removal

/-- The removal as an engine makes it. -/
def op (e : Engine) : Removal → Op Unit
  | .root r => do let _ ← e.removeRoot r
  | .path r p => do let _ ← e.removeFile r p

/-- The names of a removal are short. -/
def Fits : Removal → Prop
  | .root r => Short r
  | .path r p => Short r ∧ Short p

def marker : Removal → Marker
  | .root r => ⟨r, none⟩
  | .path r p => ⟨r, some p⟩

/-- The key of its marker. -/
def key (m : Removal) : Bytes := (Key.marker m.marker.root m.marker.path).bytes

/-- The record that is there as long as the removal has not begun. -/
def owner : Removal → Key
  | .root r => .root r
  | .path r p => .file r p

/-- The prefixes that it purges. -/
def prefixes : Removal → List Bytes
  | .root r => [Key.filesOf r, Key.versionsOf r]
  | .path r p => [Key.versionsAt r p]

/-- Whether a key is purged. -/
def Covers (m : Removal) (k : Bytes) : Prop := ∃ p ∈ m.prefixes, p <+: k

/-- The table that a removal leads to. -/
structure Target (m : Removal) (t : Records) : Prop where
  unmarked : t.under Key.markers = []
  purged : ∀ k, m.Covers k → t.get? k = none
  gone : t.has m.owner = false

/-- The table while a removal that leads to `t` is being made: its marker is there, and but for
    the marker and what is being purged it is `t`. -/
structure Purging (m : Removal) (t s : Records) : Prop where
  marked : s.get? m.key = some (Codec.marker.encode m.marker)
  rest : ∀ k, k ≠ m.key → ¬ m.Covers k → s.get? k = t.get? k

/-- The tables that a removal which leads to `t` can have committed. -/
def Underway (m : Removal) (t s : Records) : Prop := s = t ∨ m.Purging t s

variable {m : Removal}

theorem markers_prefix_key (m : Removal) : Key.markers <+: m.key :=
  Key.markers_prefix_iff.2 ⟨_, _, rfl⟩

theorem Covers.family {k : Bytes} (h : m.Covers k) : Key.files <+: k ∨ Key.versions <+: k := by
  obtain ⟨p, hp, hk⟩ := h
  cases m with
  | root r =>
    rcases List.mem_pair.1 hp with rfl | rfl
    · exact Or.inl ((List.prefix_append _ _).trans hk)
    · exact Or.inr ((List.prefix_append _ _).trans hk)
  | path r p =>
    obtain rfl := List.mem_singleton.1 hp
    exact Or.inr (Key.versions_prefix_versionsAt.trans hk)

theorem not_covers_of_marker {k : Bytes} (hk : Key.markers <+: k) : ¬ m.Covers k := by
  intro hcovers
  rcases hcovers.family with hfiles | hversions
  · exact absurd (List.prefix_of_prefix_length_le hfiles hk (Nat.le_refl 2)) (by decide)
  · exact absurd (List.prefix_of_prefix_length_le hversions hk (Nat.le_refl 2)) (by decide)

theorem not_covers_owner (m : Removal) : ¬ m.Covers m.owner.bytes := by
  intro hcovers
  cases m with
  | root r =>
    rcases hcovers.family with hfiles | hversions
    · simpa [owner] using Key.files_prefix_iff.1 hfiles
    · simpa [owner] using Key.versions_prefix_iff.1 hversions
  | path r p =>
    obtain ⟨q, hq, hk⟩ := hcovers
    obtain rfl := List.mem_singleton.1 hq
    simpa [owner] using Key.versions_prefix_iff.1 (Key.versions_prefix_versionsAt.trans hk)

theorem owner_ne_key (m : Removal) : m.owner.bytes ≠ m.key := by
  intro h
  have hmarker := Key.markers_prefix_iff.1 (h ▸ m.markers_prefix_key)
  cases m <;> simp [owner] at hmarker

namespace Target

theorem key_eq_none (h : m.Target t) : t.get? m.key = none :=
  Table.under_eq_nil_iff.1 h.unmarked _ m.markers_prefix_key

end Target

namespace Purging

/-- The marker of the removal is the only one. -/
theorem markers_eq (h : m.Purging t s) (ht : m.Target t) :
    s.under Key.markers = [(m.key, Codec.marker.encode m.marker)] := by
  apply Table.under_eq_singleton m.markers_prefix_key h.marked
  intro k hk hne
  rw [h.rest k hne (not_covers_of_marker hk)]
  exact Table.under_eq_nil_iff.1 ht.unmarked k hk

theorem owner_gone (h : m.Purging t s) (ht : m.Target t) : s.has m.owner = false := by
  rw [Table.has_congr (h.rest _ m.owner_ne_key m.not_covers_owner)]
  exact ht.gone

/-- Purging one of the prefixes goes on with the removal. -/
theorem eraseUnder (h : m.Purging t s) (p : Bytes) (hp : p ∈ m.prefixes) :
    m.Purging t (s.eraseUnder p) where
  marked := by
    have hno : ¬ p <+: m.key := fun hk => not_covers_of_marker m.markers_prefix_key ⟨p, hp, hk⟩
    rw [Table.get?_eraseUnder, if_neg hno]
    exact h.marked
  rest k hne hk := by
    have hno : ¬ p <+: k := fun hpk => hk ⟨p, hp, hpk⟩
    rw [Table.get?_eraseUnder, if_neg hno]
    exact h.rest k hne hk

theorem of_mem_purge (h : m.Purging t s) {p : Bytes} (hp : p ∈ m.prefixes)
    (hu : u ∈ (Op.purge p batch s).commits) : m.Purging t u where
  marked := by
    have hno : ¬ p <+: m.key := fun hk => not_covers_of_marker m.markers_prefix_key ⟨p, hp, hk⟩
    rw [get?_of_mem_purge hu hno]
    exact h.marked
  rest k hne hk := by
    have hno : ¬ p <+: k := fun hpk => hk ⟨p, hp, hpk⟩
    rw [get?_of_mem_purge hu hno]
    exact h.rest k hne hk

/-- Dropping the marker completes a removal all of whose prefixes are purged. -/
theorem erase_key (h : m.Purging t s) (ht : m.Target t)
    (hpurged : ∀ k, m.Covers k → s.get? k = none) : s.erase m.key = t := by
  apply Table.ext
  intro k
  rw [Table.get?_erase]
  by_cases hkey : k = m.key
  · rw [if_pos hkey, hkey, ht.key_eq_none]
  · rw [if_neg hkey]
    by_cases hcovers : m.Covers k
    · rw [hpurged k hcovers, ht.purged k hcovers]
    · exact h.rest k hkey hcovers

end Purging

/-! ### The purge of a removal -/

/-- Erasing the marker is the last step, from a table in which nothing is left to purge. -/
theorem Underway.of_mem_erase (h : m.Purging t s) (ht : m.Target t)
    (hpurged : ∀ k, m.Covers k → s.get? k = none)
    (hu : u ∈ (Op.erase m.key s).commits) : m.Underway t u := by
  obtain rfl : u = s.erase m.key := List.mem_singleton.1 hu
  exact Or.inl (h.erase_key ht hpurged)

theorem purged_root {k : Bytes} (hk : (Removal.root r).Covers k) :
    ((s.eraseUnder (Key.filesOf r)).eraseUnder (Key.versionsOf r)).get? k = none := by
  obtain ⟨p, hp, hstarts⟩ := hk
  rw [Table.get?_eraseUnder, Table.get?_eraseUnder]
  rcases List.mem_pair.1 hp with rfl | rfl
  · rw [if_pos hstarts, ite_self]
  · rw [if_pos hstarts]

theorem purged_path {k : Bytes} (hk : (Removal.path r p).Covers k) :
    (s.eraseUnder (Key.versionsAt r p)).get? k = none := by
  obtain ⟨q, hq, hstarts⟩ := hk
  obtain rfl := List.mem_singleton.1 hq
  rw [Table.get?_eraseUnder, if_pos hstarts]

theorem purging_root (h : (Removal.root r).Purging t s) : (Removal.root r).Purging t
    ((s.eraseUnder (Key.filesOf r)).eraseUnder (Key.versionsOf r)) :=
  (h.eraseUnder _ (by simp [prefixes])).eraseUnder _ (by simp [prefixes])

theorem final_purge_root (h : (Removal.root r).Purging t s) (ht : (Removal.root r).Target t)
    (batch : Nat) : ∃ n, (Roots.purge r batch).outcome s = (.ok n, t) := by
  refine ⟨_, (Roots.outcome_purge r batch s).trans (congrArg _ ?_)⟩
  exact (purging_root h).erase_key ht fun k => purged_root

theorem underway_of_mem_purge_root (h : (Removal.root r).Purging t s)
    (ht : (Removal.root r).Target t) (hu : u ∈ (Roots.purge r batch s).commits) :
    (Removal.root r).Underway t u := by
  unfold Roots.purge at hu
  rcases Op.mem_commits_bind.1 hu with hu | ⟨_, _, hu⟩
  · exact Or.inr (h.of_mem_purge (by simp [prefixes]) hu)
  have hfiles := h.eraseUnder (Key.filesOf r) (by simp [prefixes])
  rw [Op.final_eq (outcome_purge _ _ _)] at hu
  rcases Op.mem_commits_bind.1 hu with hu | ⟨_, _, hu⟩
  · exact Or.inr (hfiles.of_mem_purge (by simp [prefixes]) hu)
  rw [Op.final_eq (outcome_purge _ _ _)] at hu
  rcases Op.mem_commits_bind.1 hu with hu | ⟨_, _, hu⟩
  · rcases Op.mem_commits_bind.1 hu with hu | ⟨_, _, hu⟩
    · exact Underway.of_mem_erase (purging_root h) ht (fun k => purged_root) hu
    · simp at hu
  · simp at hu

/-! ### The removal itself -/

theorem unmarked_of_sub (h : t.under Key.markers = []) (hs : s.Sub t) :
    s.under Key.markers = [] :=
  Table.under_eq_nil_iff.2 fun k hk => hs.get?_eq_none (Table.under_eq_nil_iff.1 h k hk)

theorem unmarked_of_registryOnly (h : t.under Key.markers = []) (honly : RegistryOnly t u) :
    u.under Key.markers = [] := by
  apply Table.under_eq_nil_iff.2
  intro k hk
  have hother (q : Bytes) (hq : q.length = 2) (hne : q ≠ Key.markers) : ¬ q <+: k := by
    intro hqk
    have hstarts := List.prefix_of_prefix_length_le hqk hk (Nat.le_of_eq hq)
    exact hne (hstarts.eq_of_length hq)
  rw [honly.same k (hother Key.clients rfl (by decide)) (hother Key.roots rfl (by decide))]
  exact Table.under_eq_nil_iff.1 h k hk

theorem target_root (h : t.under Key.markers = []) :
    (Removal.root r).Target (Roots.removed r t) where
  unmarked := unmarked_of_sub h (Roots.removed_sub r t)
  purged k hk := (Table.sub_erase _ _).get?_eq_none (purged_root hk)
  gone := by
    rw [Table.has_eq_false_iff]
    simp [Roots.removed, owner]

theorem target_path (h : t.under Key.markers = []) :
    (Removal.path r p).Target (Files.removed r p t) where
  unmarked := unmarked_of_sub h (Files.removed_sub r p t)
  purged k hk := (Table.sub_erase _ _).get?_eq_none (purged_path hk)
  gone := by
    rw [Table.has_eq_false_iff]
    simp [Files.removed, owner]

theorem purging_detached_root :
    (Removal.root r).Purging (Roots.removed r t) (Roots.detached r t) where
  marked := by simp [Roots.detached, key, marker]
  rest k hne hk := by
    have hfiles : ¬ Key.filesOf r <+: k := fun h => hk ⟨_, by simp [prefixes], h⟩
    have hversions : ¬ Key.versionsOf r <+: k := fun h => hk ⟨_, by simp [prefixes], h⟩
    have hmarker : k ≠ (Key.marker r none).bytes := hne
    rw [Roots.get?_detached hmarker]
    simp [Roots.removed, hfiles, hversions, hmarker]

theorem purging_detached_path :
    (Removal.path r p).Purging (Files.removed r p t) (Files.detached r p t) where
  marked := by simp [Files.detached, key, marker]
  rest k hne hk := by
    have hversions : ¬ Key.versionsAt r p <+: k := fun h => hk ⟨_, by simp [prefixes], h⟩
    have hmarker : k ≠ (Key.marker r (some p)).bytes := hne
    rw [Files.get?_detached hmarker]
    simp [Files.removed, hversions, hmarker]

/-- Every table that a removal of a root commits is on the way to the one that it leaves. -/
theorem underway_root (hopen : t.under Key.markers = [])
    (hs : s ∈ (Roots.remove r batch t).commits) :
    ∃ u, (Removal.root r).Target u ∧ (Roots.remove r batch t).final t = u ∧
      (Removal.root r).Underway u s := by
  rcases Roots.detach_cases r t with ⟨v, honly, _, _, hok⟩ | ⟨_, herr⟩ | herr
  · have htarget := target_root (r := r) (unmarked_of_registryOnly hopen honly)
    obtain ⟨n, hn⟩ := Roots.outcome_remove hok batch
    refine ⟨_, htarget, Op.final_eq hn, ?_⟩
    unfold Roots.remove at hs
    rcases Op.mem_commits_bind.1 hs with hs | ⟨_, _, hs⟩
    · rw [Op.commit_of_ok hok] at hs
      obtain rfl := List.mem_singleton.1 hs
      exact Or.inr purging_detached_root
    · rw [Op.final_eq (Op.outcome_commit_ok hok)] at hs
      exact underway_of_mem_purge_root purging_detached_root htarget hs
  · rw [Roots.remove, Op.bind_of_error (by rw [Op.commit_of_error herr]),
      Op.commit_of_error herr] at hs
    contradiction
  · rw [Roots.remove, Op.bind_of_error (by rw [Op.commit_of_error herr]),
      Op.commit_of_error herr] at hs
    contradiction

/-- Every table that a removal of a path commits is on the way to the one that it leaves. -/
theorem underway_path (hopen : t.under Key.markers = [])
    (hs : s ∈ (Files.remove r p batch t).commits) :
    ∃ u, (Removal.path r p).Target u ∧ (Files.remove r p batch t).final t = u ∧
      (Removal.path r p).Underway u s := by
  by_cases hthere : t.has (.root r) = true ∧ t.has (.file r p) = true
  · have hok := Files.detach_eq hthere.1 hthere.2
    have htarget := target_path (r := r) (p := p) hopen
    refine ⟨_, htarget, Op.final_eq (Files.outcome_remove hthere.1 hthere.2 batch), ?_⟩
    unfold Files.remove at hs
    rcases Op.mem_commits_bind.1 hs with hs | ⟨_, _, hs⟩
    · rw [Op.commit_of_ok hok] at hs
      obtain rfl := List.mem_singleton.1 hs
      exact Or.inr purging_detached_path
    rw [Op.final_eq (Op.outcome_commit_ok hok)] at hs
    rcases Op.mem_commits_bind.1 hs with hs | ⟨_, _, hs⟩
    · exact Or.inr (purging_detached_path.of_mem_purge (by simp [prefixes]) hs)
    rw [History.purge, Op.final_eq (outcome_purge _ _ _)] at hs
    have hpurging : (Removal.path r p).Purging _ _ :=
      (purging_detached_path (t := t)).eraseUnder _ (List.mem_singleton_self _)
    rcases Op.mem_commits_bind.1 hs with hs | ⟨_, _, hs⟩
    · rcases Op.mem_commits_bind.1 hs with hs | ⟨_, _, hs⟩
      · exact Underway.of_mem_erase hpurging htarget (fun k => purged_path) hs
      · simp at hs
    · simp at hs
  · have hmissing : t.has (.root r) = false ∨ t.has (.file r p) = false := by
      rw [not_and_or] at hthere
      simpa using hthere
    obtain ⟨m, herr⟩ := Files.detach_missing hmissing
    rw [Files.remove, Op.bind_of_error (by rw [Op.commit_of_error herr]),
      Op.commit_of_error herr] at hs
    contradiction

/-! ### Recovery -/

/-- Where there is no marker, recovery commits nothing. -/
theorem recover_of_unmarked (h : t.under Key.markers = []) (e : Engine) :
    e.recover t = ⟨[], .ok {}⟩ := by
  have hscan : t.scan Codec.marker Key.markers = .ok [] := by
    rw [Table.scan, h]
    rfl
  exact Op.read_bind_of_ok (g := fun t => t.scan Codec.marker Key.markers) hscan

/-- What recovery does where one removal is underway. -/
def resume (e : Engine) (m : Removal) : Op Sweep.Report := do
  let done ← Sweep.finish m.marker e.batch
  let _ ← Op.erase m.key
  return ({} : Sweep.Report).add done

theorem restores_marker (hm : m.Fits) : Codec.marker.Restores m.marker := by
  cases m with
  | root r => exact Codec.restores_marker hm (by simp [marker])
  | path r p => exact Codec.restores_marker hm.1 (by simpa [marker] using hm.2)

theorem Purging.recover_eq (h : m.Purging t s) (ht : m.Target t) (hm : m.Fits) (e : Engine) :
    e.recover s = m.resume e s := by
  have hscan : s.scan Codec.marker Key.markers = .ok [(m.key, m.marker)] := by
    rw [Table.scan, h.markers_eq ht, Table.decodeAll_eq_ok_iff]
    exact .cons ⟨rfl, (restores_marker hm).read?⟩ .nil
  exact Op.read_bind_of_ok (g := fun t => t.scan Codec.marker Key.markers) hscan

/-- A removal that is underway is purged; it does not find its object in use. -/
theorem Purging.finish_root (h : (Removal.root r).Purging t s) (ht : (Removal.root r).Target t)
    (batch : Nat) : Sweep.finish ⟨r, none⟩ batch s = (do
      let purged ← Roots.purge r batch
      return ⟨1, purged.files, purged.versions⟩ : Op Sweep.Report) s := by
  have hgone : s.has (.root r) = false := h.owner_gone ht
  exact Op.read_bind_of_ok (g := fun t => .ok (t.has (.root r))) (congrArg Except.ok hgone)

theorem Purging.finish_path (h : (Removal.path r p).Purging t s)
    (ht : (Removal.path r p).Target t) (batch : Nat) :
    Sweep.finish ⟨r, some p⟩ batch s = (do
      let n ← History.purge r p batch
      return ⟨1, 0, n⟩ : Op Sweep.Report) s := by
  have hgone : s.has (.file r p) = false := h.owner_gone ht
  exact Op.read_bind_of_ok (g := fun t => .ok (t.has (.file r p))) (congrArg Except.ok hgone)

/-- What the purge of a removal that is underway leaves, but for the marker, and what it
    commits. -/
theorem Purging.finish (h : m.Purging t s) (ht : m.Target t) (batch : Nat) :
    ∃ n v, (Sweep.finish m.marker batch).outcome s = (.ok n, v) ∧ v.erase m.key = t ∧
      ∀ u ∈ (Sweep.finish m.marker batch s).commits, m.Underway t u := by
  cases m with
  | root r =>
    have hfinish := h.finish_root ht batch
    obtain ⟨n, hn⟩ := final_purge_root h ht batch
    refine ⟨⟨1, n.files, n.versions⟩, t, ?_, Table.erase_eq_self ht.key_eq_none, ?_⟩
    · exact (Op.outcome_congr hfinish).trans (Op.outcome_bind_ok hn)
    · intro u hu
      rw [marker, hfinish] at hu
      rcases Op.mem_commits_bind.1 hu with hu | ⟨_, _, hu⟩
      · exact underway_of_mem_purge_root h ht hu
      · simp at hu
  | path r p =>
    have hfinish := h.finish_path ht batch
    have hn := outcome_purge (Key.versionsAt r p) batch s
    have hpurged := h.eraseUnder (Key.versionsAt r p) (List.mem_singleton_self _)
    refine ⟨⟨1, 0, (s.under (Key.versionsAt r p)).length⟩, s.eraseUnder (Key.versionsAt r p), ?_,
      hpurged.erase_key ht fun k => purged_path, fun u hu => ?_⟩
    · exact (Op.outcome_congr hfinish).trans (Op.outcome_bind_ok hn)
    · rw [marker, hfinish] at hu
      rcases Op.mem_commits_bind.1 hu with hu | ⟨_, _, hu⟩
      · exact Or.inr (h.of_mem_purge (List.mem_singleton_self _) hu)
      · simp at hu

/-- Recovery completes a removal that is underway, and each of its commits is a table that the
    removal could have left itself. -/
theorem Purging.recover (h : m.Purging t s) (ht : m.Target t) (hm : m.Fits) (e : Engine) :
    (∃ n, e.recover.outcome s = (.ok n, t)) ∧ ∀ u ∈ (e.recover s).commits, m.Underway t u := by
  obtain ⟨n, v, hn, hv, hcommits⟩ := h.finish ht e.batch
  have hresume := h.recover_eq ht hm e
  constructor
  · have hend : (m.resume e).outcome s = (.ok (({} : Sweep.Report).add n), v.erase m.key) :=
      (Op.outcome_bind_ok hn).trans (Op.outcome_bind_ok (outcome_erase m.key v))
    exact ⟨_, (Op.outcome_congr hresume).trans (hv ▸ hend)⟩
  · intro u hu
    rw [hresume] at hu
    rcases Op.mem_commits_bind.1 hu with hu | ⟨_, _, hu⟩
    · exact hcommits u hu
    rw [Op.final_eq hn] at hu
    rcases Op.mem_commits_bind.1 hu with hu | ⟨_, _, hu⟩
    · obtain rfl : u = v.erase m.key := List.mem_singleton.1 hu
      exact Or.inl hv
    · simp at hu

theorem Underway.recover (h : m.Underway t s) (ht : m.Target t) (hm : m.Fits) (e : Engine) :
    (∃ n, e.recover.outcome s = (.ok n, t)) ∧ ∀ u ∈ (e.recover s).commits, m.Underway t u := by
  rcases h with rfl | h
  · rw [Op.outcome, recover_of_unmarked ht.unmarked e]
    exact ⟨⟨{}, rfl⟩, by simp⟩
  · exact h.recover ht hm e

theorem commits_op (e : Engine) (m : Removal) (t : Records) : (m.op e t).commits = match m with
    | .root r => (Roots.remove r e.batch t).commits
    | .path r p => (Files.remove r p e.batch t).commits := by
  cases m with
  | root r => exact Op.commits_discard _ _ _
  | path r p => exact Op.commits_discard _ _ _

/-- Every table that a removal commits is on the way to the one that it leaves. -/
theorem underway_of_mem_op (hopen : t.under Key.markers = []) (e : Engine) (m : Removal)
    (hs : s ∈ (m.op e t).commits) :
    m.Target ((m.op e t).final t) ∧ m.Underway ((m.op e t).final t) s := by
  have hfinal := m.commits_op e t
  rw [hfinal] at hs
  rw [Run.final, hfinal]
  cases m with
  | root r =>
    obtain ⟨u, htarget, rfl, hunderway⟩ := underway_root hopen hs
    exact ⟨htarget, hunderway⟩
  | path r p =>
    obtain ⟨u, htarget, rfl, hunderway⟩ := underway_path hopen hs
    exact ⟨htarget, hunderway⟩

/-- An engine that was opened over the first table has stopped after some commit of its recovery,
    which left the second. -/
def Interrupted (s u : Records) : Prop := ∃ e : Engine, u ∈ (e.recover s).commits

theorem Underway.of_interrupted (h : m.Underway t s) (ht : m.Target t) (hm : m.Fits)
    (hu : Relation.ReflTransGen Interrupted s u) : m.Underway t u := by
  -- each recovery that is cut short leaves the removal underway
  induction hu with
  | refl => exact h
  | tail _ hstep ih =>
    obtain ⟨e, hmem⟩ := hstep
    exact (ih.recover ht hm e).2 _ hmem

theorem openOver_eq {c : Config} {k : Schemes} {e : Engine} {db : Database} {n : Sweep.Report}
    (he : Engine.ofConfig c k = .ok e) (hn : e.recover.outcome db.records = (.ok n, t)) :
    Engine.openOver c db k = .ok (e, { db with records := t }) := by
  unfold Engine.openOver
  rw [he]
  show (e.recover db.records).answer.map (fun _ => (e, _)) = _
  rw [Op.answer_eq hn, Op.final_eq hn]
  rfl

theorem openOver_of_unmarked {c : Config} {k : Schemes} {e : Engine} {db : Database}
    (he : Engine.ofConfig c k = .ok e) (h : db.records.under Key.markers = []) :
    Engine.openOver c db k = .ok (e, db) := by
  refine openOver_eq (n := {}) he ?_
  rw [Op.outcome, recover_of_unmarked h e]
  rfl

/-- **Recovery finishes an interrupted removal exactly.**  Over a table without markers opening
    an engine changes nothing.  From any table that a removal over it commits, and any that
    recoveries which are themselves interrupted make of that one, opening an engine leads to the
    table that the uninterrupted removal leaves.  The settings, and with them the size of the
    batches, may be others each time, and so may the schemes. -/
theorem recovered_exactly (hopen : t.under Key.markers = []) :
    (∀ (c : Config) (k : Schemes) (e : Engine) (db : Database), db.records = t →
      Engine.ofConfig c k = .ok e → Engine.openOver c db k = .ok (e, db)) ∧
    ∀ (e : Engine) (m : Removal), m.Fits → ∀ s ∈ (m.op e t).commits, ∀ u,
      Relation.ReflTransGen Interrupted s u →
      ∀ (c : Config) (k : Schemes) (e' : Engine) (db : Database), db.records = u →
        Engine.ofConfig c k = .ok e' →
        Engine.openOver c db k = .ok (e', { db with records := (m.op e t).final t }) := by
  constructor
  · rintro c k e db rfl he
    refine openOver_eq (n := {}) he ?_
    rw [Op.outcome, recover_of_unmarked hopen e]
    rfl
  · rintro e m hm s hs u hu c k e' db rfl he
    obtain ⟨htarget, hunderway⟩ := underway_of_mem_op hopen e m hs
    obtain ⟨n, hn⟩ := ((hunderway.of_interrupted htarget hm hu).recover htarget hm e').1
    exact openOver_eq he hn

/-- A root with one file that has two versions. -/
def sample : Records :=
  let root : Root :=
    { path := "r", owner := "o", passwordHash := "s", epoch := 0, members := .empty,
      createdAt := ⟨0, 0⟩ }
  let version (ts : UInt64) : Version :=
    { root := "r", before := none, after := "a", date := ⟨0, 0⟩, client := ⟨1⟩, timestamp := ts,
      hash := "h", change := .created }
  let file := (version 2).fileAt "a" {}
  (((Table.empty.insert (Key.root "r").bytes (Codec.root.encode root)).insert
    (Key.file "r" "a").bytes (Codec.file.encode file)).insert
    (Key.version "r" "a" 1).bytes (Codec.version.encode (version 1))).insert
    (Key.version "r" "a" 2).bytes (Codec.version.encode (version 2))

/-- An engine that removes one record in each commit. -/
def stepwise : Engine :=
  let c : Config := { storage := { cascadeBatch := 1 }, dataDir := "" }
  ⟨c, .standard, Password.scheme c.security.costs⟩

/-- A removal of a path is cut short after its first commit, and the recovery after it too. -/
theorem recovered_after_two_crashes :
    let s := Files.detached "r" "a" sample
    let u := s.erase (Key.version "r" "a" 1).bytes
    let m := Removal.path "r" "a"
    s ∈ (m.op stepwise sample).commits ∧ u ∈ (stepwise.recover s).commits ∧
      Engine.openOver stepwise.config { records := u }
        = .ok (stepwise, { records := (m.op stepwise sample).final sample }) := by
  intro s u m
  have hs : s ∈ (m.op stepwise sample).commits := by decide +kernel
  have hu : u ∈ (stepwise.recover s).commits := by decide +kernel
  have hm : m.Fits := ⟨by decide, by decide⟩
  obtain ⟨-, hrecovered⟩ := recovered_exactly (t := sample) (by decide +kernel)
  exact ⟨hs, hu, hrecovered stepwise m hm s hs u (.single ⟨stepwise, hu⟩) stepwise.config
    .standard stepwise { records := u } rfl rfl⟩

end Removal

end SyncLedger
