/-
  SyncLedger/Proofs/Markers.lean
  ==============================
  **What a marker reserves stays reserved.**  Under the marker of a removal there is no root (or no
  file), and nothing comes under it again.  A root is registered only where there is no marker of
  it; an observation needs its root and is stopped by the marker of either of its paths; and a
  removal or a sweep drops only the marker that it left itself, where there was none before.  So
  whatever is done between two restarts, what a purge will erase was there when its marker was left
  (`Removal.Closed`).

  The names of observations are short here and those of everything else are of any length.  A
  longer name could be given to a root so that its versions stand under the prefix of another's
  path.
-/
import SyncLedger.Proofs.Invariants

namespace SyncLedger

variable {t₀ t u : Records} {o : Observation} {now : Instant} {batch : Nat} {k : Bytes}

/-- What a transaction that leaves a marker sees to: the root, or the file, is not there. -/
structure Detached (t : Records) : Prop where
  inPlace : FilesInPlace t
  gone : ∀ m : Removal, t.contains m.key = true → t.has m.owner = false

/-- The scope of a marker has been closed since the table `t₀`: the marker is there, what it takes
    out of use is not, and whatever is left to be purged is as it was. -/
structure Removal.Closed (m : Removal) (t₀ t : Records) : Prop where
  marked : t.contains m.key = true
  gone : t.has m.owner = false
  old : ∀ k b, m.Covers k → t.get? k = some b → t₀.get? k = some b

/-- Every marker of the first table has kept its scope closed. -/
structure Sealed (t₀ t : Records) : Prop where
  inPlace : FilesInPlace t
  closed : ∀ m : Removal, t₀.contains m.key = true → m.Closed t₀ t

theorem Detached.sealed (h : Detached t) : Sealed t t where
  inPlace := h.inPlace
  closed m hm := ⟨hm, h.gone m hm, fun _ _ _ hb => hb⟩

structure Observation.Named (o : Observation) : Prop where
  root : Short o.root
  path : Short o.path
  former : ∀ p ∈ o.renamedFrom, Short p

/-- Any call but a restart; an observation brings short names. -/
def Call.Ordinary : Call → Prop
  | .observe o _ | .recordEvent o _ => o.Named
  | .restart _ => False
  | _ => True

/-! ### Keys that no marker reserves -/

namespace Removal

variable {m : Removal}

theorem not_covers (hfiles : ¬ Key.files <+: k) (hversions : ¬ Key.versions <+: k) :
    ¬ m.Covers k := fun h => h.family.elim hfiles hversions

theorem owner_ne {key : Key} (hroot : ∀ r, key ≠ .root r) (hfile : ∀ r p, key ≠ .file r p) :
    key.bytes ≠ m.owner.bytes := by
  intro h
  cases m with
  | root r => exact hroot r (Key.root_bytes_inj.1 h.symm)
  | path r p =>
    obtain ⟨q, o, rfl⟩ := Key.files_prefix_iff.1 (h ▸ Key.files_prefix_iff.2 ⟨r, p, rfl⟩)
    exact hfile q o rfl

theorem key_ne_owner (m n : Removal) : n.key ≠ m.owner.bytes := by
  show (Key.marker n.marker.root n.marker.path).bytes ≠ m.owner.bytes
  exact owner_ne (by simp) (by simp)

/-- Whether a removal leaves a path alone: its versions and its file are none of the removal's. -/
def Spares (m : Removal) (r p : String) : Prop :=
  (∀ ts, ¬ m.Covers (Key.version r p ts).bytes) ∧ ¬ m.Covers (Key.file r p).bytes ∧
    (Key.file r p).bytes ≠ m.owner.bytes

/-- The removals that have a marker spare the paths of a registered root that have none. -/
theorem Closed.spares {r p : String} (h : m.Closed t₀ t) (hr : Short r) (hp : Short p)
    (hroot : t.has (.root r) = true) (hopen : t.has (.marker r (some p)) = false) :
    m.Spares r p := by
  cases m with
  | root q =>
    have hgone : t.has (.root q) = false := h.gone
    have hne : q ≠ r := by
      rintro rfl
      rw [hroot] at hgone
      contradiction
    refine ⟨?_, ?_, ?_⟩
    · rintro ts ⟨pre, hpre, hk⟩
      rcases List.mem_pair.1 hpre with rfl | rfl
      · simpa using Key.files_prefix_iff.1 ((List.prefix_append _ _).trans hk)
      · exact hne ((Key.versionsOf_prefix_version_iff hr hp).1 hk)
    · rintro ⟨pre, hpre, hk⟩
      rcases List.mem_pair.1 hpre with rfl | rfl
      · exact hne ((Key.filesOf_prefix_file_iff hr hp).1 hk)
      · simpa using Key.versions_prefix_iff.1 ((List.prefix_append _ _).trans hk)
    · intro h
      simpa using Key.root_bytes_inj.1 h.symm
  | path q o =>
    have hmarked : t.has (.marker q (some o)) = true := h.marked
    have hne : ¬ (q = r ∧ o = p) := by
      rintro ⟨rfl, rfl⟩
      rw [hmarked] at hopen
      contradiction
    refine ⟨?_, ?_, ?_⟩
    · rintro ts ⟨pre, hpre, hk⟩
      obtain rfl := List.mem_singleton.1 hpre
      exact hne ((Key.versionsAt_prefix_version_iff hr hp).1 hk)
    · rintro ⟨pre, hpre, hk⟩
      obtain rfl := List.mem_singleton.1 hpre
      simpa using Key.versions_prefix_iff.1 (Key.versions_prefix_versionsAt.trans hk)
    · intro h
      exact hne ((Key.file_bytes_inj_of_short hr hp).1 h.symm)

end Removal

/-! ### Single writes -/

namespace Sealed

/-- Whatever goes but a marker that was there at first. -/
theorem sub (h : Sealed t₀ t) (hs : u.Sub t)
    (hmarked : ∀ m : Removal, t₀.contains m.key = true → u.get? m.key = t.get? m.key) :
    Sealed t₀ u where
  inPlace := h.inPlace.sub hs
  closed m hm := by
    obtain ⟨hmark, hgone, hold⟩ := h.closed m hm
    refine ⟨?_, ?_, fun k b hk hb => hold k b hk (hs k b hb)⟩
    · rw [Table.contains, hmarked m hm]
      exact hmark
    · exact Table.has_eq_false_iff.2 (hs.get?_eq_none (Table.has_eq_false_iff.1 hgone))

theorem erase (h : Sealed t₀ t)
    (hk : ∀ m : Removal, t₀.contains m.key = true → k ≠ m.key) : Sealed t₀ (t.erase k) := by
  apply h.sub (Table.sub_erase t k)
  intro m hm
  rw [Table.get?_erase, if_neg (hk m hm).symm]

/-- Whatever is put where no marker reserves it, a file under its own root and path. -/
theorem insert (h : Sealed t₀ t) {b : Bytes}
    (hfree : ∀ m : Removal, t₀.contains m.key = true → ¬ m.Covers k ∧ k ≠ m.owner.bytes)
    (hplace : Key.files <+: k → ∀ f, Codec.file.read? b = some f →
      k = (Key.file f.root f.path).bytes) : Sealed t₀ (t.insert k b) where
  inPlace := h.inPlace.insert hplace
  closed m hm := by
    obtain ⟨hmark, hgone, hold⟩ := h.closed m hm
    obtain ⟨huncovered, howner⟩ := hfree m hm
    refine ⟨?_, ?_, ?_⟩
    · obtain ⟨c, hc⟩ := Table.contains_iff.1 hmark
      rw [Table.contains_iff, Table.get?_insert]
      split
      · exact ⟨b, rfl⟩
      · exact ⟨c, hc⟩
    · rw [Table.has_congr (t := t) (by rw [Table.get?_insert, if_neg howner.symm])]
      exact hgone
    · intro l c hl hc
      rw [Table.get?_insert, if_neg] at hc
      · exact hold l c hl hc
      · rintro rfl
        exact huncovered hl

/-- Client records, markers and roots stand outside of every scope. -/
theorem insert_key (h : Sealed t₀ t) {key : Key} (b : Bytes) (hfile : ∀ r p, key ≠ .file r p)
    (hversion : ∀ r p ts, key ≠ .version r p ts)
    (howner : ∀ m : Removal, t₀.contains m.key = true → key.bytes ≠ m.owner.bytes) :
    Sealed t₀ (t.insert key.bytes b) := by
  have hfiles : ¬ Key.files <+: key.bytes := by
    intro hk
    obtain ⟨r, p, rfl⟩ := Key.files_prefix_iff.1 hk
    exact hfile r p rfl
  have hversions : ¬ Key.versions <+: key.bytes := by
    intro hk
    obtain ⟨r, p, ts, rfl⟩ := Key.versions_prefix_iff.1 hk
    exact hversion r p ts rfl
  apply h.insert
  · intro m hm
    exact ⟨Removal.not_covers hfiles hversions, howner m hm⟩
  · intro hk
    exact absurd hk hfiles

theorem insert_marker (h : Sealed t₀ t) (r : String) (p : Option String) (b : Bytes) :
    Sealed t₀ (t.insert (Key.marker r p).bytes b) :=
  h.insert_key b (by simp) (by simp) fun _ _ => Removal.owner_ne (by simp) (by simp)

/-- A root is put where it is there already, or where it has no marker. -/
theorem insert_root (h : Sealed t₀ t) {r : String} (b : Bytes)
    (hroot : t.has (.root r) = true ∨ t.has (.marker r none) = false) :
    Sealed t₀ (t.insert (Key.root r).bytes b) := by
  apply h.insert_key b (by simp) (by simp)
  intro m hm heq
  obtain ⟨hmark, hgone, -⟩ := h.closed m hm
  cases m with
  | root q =>
    obtain rfl : r = q := by simpa [Removal.owner] using Key.root_bytes_inj.1 heq.symm
    have hmark' : t.has (.marker r none) = true := hmark
    have hgone' : t.has (.root r) = false := hgone
    simp [hmark', hgone'] at hroot
  | path q p => simpa [Removal.owner] using Key.root_bytes_inj.1 heq

theorem registryWrite {r : String} (hs : RegistryWrite r t u) (h : Sealed t₀ t) :
    Sealed t₀ u := by
  cases hs with
  | client id c =>
    exact h.insert_key _ (by simp) (by simp) fun _ _ => Removal.owner_ne (by simp) (by simp)
  | noClient id =>
    apply h.erase
    intro m _ heq
    obtain ⟨_, _, hmarker⟩ := Key.markers_prefix_iff.1 (heq ▸ m.markers_prefix_key)
    contradiction
  | root hold _ =>
    obtain ⟨b, hb, -⟩ := Table.fetch_eq_some_iff.1 hold
    exact h.insert_root _ (Or.inl (Table.has_iff.2 ⟨b, hb⟩))

/-! ### Removals -/

theorem keeps_purge {pre : Bytes} (hpre : Key.files <+: pre ∨ Key.versions <+: pre) :
    Op.Keeps (Sealed t₀) (Op.purge pre batch) := by
  intro t h s hs
  apply h.sub (sub_of_mem_purge hs)
  intro m _
  apply get?_of_mem_purge hs
  -- no marker stands among the files or the versions
  intro hk
  obtain ⟨r, p, hkey⟩ : ∃ r p, m.key = (Key.marker r p).bytes := ⟨_, _, rfl⟩
  rw [hkey] at hk
  rcases hpre with hpre | hpre
  · simpa using Key.files_prefix_iff.1 (hpre.trans hk)
  · simpa using Key.versions_prefix_iff.1 (hpre.trans hk)

theorem keeps_drop {r : String} {p : Option String} (hnew : t₀.has (.marker r p) = false) :
    Op.Keeps (Sealed t₀) (Op.drop (.marker r p)) := by
  apply Op.Keeps.drop
  intro t h
  apply h.erase
  intro m hm heq
  rw [Table.has, heq, hm] at hnew
  contradiction

theorem keeps_purgeRoot {r : String} (hnew : t₀.has (.marker r none) = false) :
    Op.Keeps (Sealed t₀) (Roots.purge r batch) := by
  apply Op.Keeps.purgeRoot
  · exact keeps_purge (Or.inl (List.prefix_append _ _))
  · exact keeps_purge (Or.inr (List.prefix_append _ _))
  · exact keeps_drop hnew

theorem keeps_purgePath (r p : String) : Op.Keeps (Sealed t₀) (History.purge r p batch) :=
  keeps_purge (Or.inr Key.versions_prefix_versionsAt)

/-- What is in use had no marker at first. -/
theorem unmarked (h : Sealed t₀ t) {m : Removal} (hthere : t.has m.owner = true) :
    t₀.contains m.key = false := by
  cases hm : t₀.contains m.key with
  | false => rfl
  | true =>
    rw [(h.closed m hm).gone] at hthere
    contradiction

theorem unmarked_of_free (h : Sealed t₀ t) {r : String} {p : Option String}
    (hfree : t.has (.marker r p) = false) : t₀.has (.marker r p) = false := by
  have hkept (m : Removal) (hm : t.contains m.key = false) : t₀.contains m.key = false := by
    cases hm₀ : t₀.contains m.key with
    | false => rfl
    | true =>
      rw [(h.closed m hm₀).marked] at hm
      contradiction
  cases p with
  | none => exact hkept (.root r) hfree
  | some p => exact hkept (.path r p) hfree

theorem replace (h : Sealed t₀ t) (m : Removal) (b : Bytes) :
    Sealed t₀ ((t.erase m.owner.bytes).insert m.key b) := by
  apply insert_marker
  apply h.erase
  -- a root or a file goes, and neither stands at the key of a marker
  intro n _ heq
  exact Removal.key_ne_owner m n heq.symm

theorem keeps_removeRoot (r : String) : Op.Keeps (Sealed t₀) (Roots.remove r batch) := by
  apply RegistryWrite.keeps_removeRoot fun _ _ => registryWrite
  · intro t h
    exact h.replace (.root r) _
  · intro t hroot h
    exact keeps_purgeRoot (h.unmarked (m := .root r) hroot)

theorem keeps_removeFile (r p : String) : Op.Keeps (Sealed t₀) (Files.remove r p batch) := by
  apply Op.Keeps.removeFile
  · intro t h
    exact h.replace (.path r p) _
  · intro t hfile h
    exact ⟨keeps_purgePath r p, keeps_drop (h.unmarked (m := .path r p) hfile)⟩

/-- A sweep reserves only what no marker reserves yet. -/
theorem keeps_orphans : Op.Keeps (Sealed t₀) (Sweep.orphans batch) := by
  have hnew {t : Records} {r : String} {p : Option String} (h : Sealed t₀ t)
      (hyes : (Op.commit (Sweep.reserve r p) t).answer = .ok true) :
      t₀.has (.marker r p) = false := by
    obtain ⟨s, hs⟩ := Op.exists_of_commit hyes
    rcases Sweep.reserve_cases r p t with hno | ⟨hfree, -⟩
    · simp [hno] at hs
    · exact h.unmarked_of_free hfree
  apply Op.Keeps.orphans
  · intro r p
    exact .reserve fun _ _ h => h.insert_marker r p _
  · intro r t h hyes
    exact keeps_purgeRoot (hnew h hyes)
  · intro r p t h hyes
    exact ⟨keeps_purgePath r p, keeps_drop (hnew h hyes)⟩

/-! ### Observations -/

theorem insert_version (h : Sealed t₀ t) {r p : String}
    (hspares : ∀ m : Removal, t₀.contains m.key = true → m.Spares r p) (ts : UInt64) (b : Bytes) :
    Sealed t₀ (t.insert (Key.version r p ts).bytes b) := by
  apply h.insert
  · intro m hm
    exact ⟨(hspares m hm).1 ts, Removal.owner_ne (by simp) (by simp)⟩
  · intro hk
    simpa using Key.files_prefix_iff.1 hk

theorem insert_file (h : Sealed t₀ t) {r p : String}
    (hspares : ∀ m : Removal, t₀.contains m.key = true → m.Spares r p) (hr : Short r)
    (hp : Short p) {f : File} (hroot : f.root = r) (hpath : f.path = p) :
    Sealed t₀ (t.insert (Key.file r p).bytes (Codec.file.encode f)) := by
  subst hroot hpath
  apply h.insert
  · intro m hm
    exact (hspares m hm).2
  · intro _ g hg
    obtain ⟨hgroot, hgpath⟩ := Codec.place_of_read?_file hr hp hg
    rw [hgroot, hgpath]

theorem keeps_observe (ho : o.Named) : Op.Keeps (Sealed t₀) (Files.observe o now) := by
  apply Op.keeps_commit
  intro t d s h hs
  obtain ⟨-, hroot, hopen, -⟩ := Files.reconcile_ok hs
  -- every marker spares both paths: their root is there, and they have no marker themselves
  have hspares {p : String} (hp : Short p) (hopen : t.has (.marker o.root (some p)) = false)
      (m : Removal) (hm : t₀.contains m.key = true) : m.Spares o.root p :=
    (h.closed m hm).spares ho.root hp hroot hopen
  have hplace {p : String} (hp : Short p) {f : File}
      (hfetch : t.fetch Codec.file (Key.file o.root p).bytes = .ok (some f)) :
      f.root = o.root ∧ f.path = p := by
    have hkey := h.inPlace _ f (Key.files_prefix_iff.2 ⟨_, _, rfl⟩) hfetch
    exact (Key.file_bytes_inj_of_short ho.root hp).1 hkey.symm
  apply Files.reconcile_writes hs h
  · intro u v hu
    exact hu.insert_version (hspares ho.path hopen) _ _
  · intro u ts hu
    exact hu.insert_file (hspares ho.path hopen) ho.root ho.path rfl rfl
  · intro f hfetch
    obtain ⟨hfroot, hfpath⟩ := hplace ho.path hfetch
    exact h.insert_file (hspares ho.path hopen) ho.root ho.path hfroot hfpath
  · intro p f hp hopen hfetch
    have hshort : Short p := ho.former p (Observation.source?_eq_some hp).1
    obtain ⟨hfroot, rfl⟩ := hplace hshort hfetch
    constructor
    · intro u v hu
      exact hu.insert_version (hspares hshort hopen) _ _
    · intro u ts hu
      exact hu.insert_file (hspares hshort hopen) ho.root hshort hfroot rfl

/-! ### Runs -/

theorem serve {s : Session} {q : Call} (h : Sealed t₀ s.records) (hq : q.Ordinary) :
    Sealed t₀ (s.serve q).2.records := by
  apply Session.keeps_serve _ _ keeps_removeRoot keeps_removeFile keeps_orphans _ _ h
  · intro r t u hu h
    exact registryWrite hu h
  · intro r t x _ _ hunmarked h
    exact h.insert_root _ (Or.inr hunmarked)
  · intro o now hcall stamp
    have ho : o.Named := by
      rcases hcall with rfl | rfl
      · exact hq
      · exact hq
    exact keeps_observe ⟨ho.root, ho.path, ho.former⟩
  · rintro c rfl
    exact hq.elim

theorem run {s : Session} (h : Sealed t₀ s.records) {qs : List Call}
    (hqs : ∀ q ∈ qs, q.Ordinary) : Sealed t₀ (s.run qs).records := by
  apply Session.keeps_run (P := fun s => Sealed t₀ s.records) _ h
  intro q hq s hs
  exact hs.serve (hqs q hq)

end Sealed

/-! ### Detaching -/

theorem Removal.key_inj {m n : Removal} (hm : m.Fits) (h : n.key = m.key) : n = m := by
  cases m with
  | root r =>
    obtain ⟨hroot, hpath⟩ := (Key.marker_bytes_inj_of_short hm (by simp [Removal.marker])).1 h
    cases n with
    | root q => exact congrArg Removal.root hroot
    | path q o => contradiction
  | path r p =>
    have hshort : ∀ q ∈ some p, Short q := by simpa using hm.2
    obtain ⟨hroot, hpath⟩ := (Key.marker_bytes_inj_of_short hm.1 hshort).1 h
    cases n with
    | root q => contradiction
    | path q o => exact congrArg₂ Removal.path hroot (Option.some.inj hpath)

namespace Detached

theorem of_unmarked (h : FilesInPlace t) (hnone : t.under Key.markers = []) : Detached t where
  inPlace := h
  gone m hm := by
    obtain ⟨b, hb⟩ := Table.contains_iff.1 hm
    rw [Table.under_eq_nil_iff.1 hnone _ m.markers_prefix_key] at hb
    contradiction

theorem replace (h : Detached t) {m : Removal} (hm : m.Fits) (b : Bytes) :
    Detached ((t.erase m.owner.bytes).insert m.key b) where
  inPlace := by
    apply (h.inPlace.sub (Table.sub_erase t _)).insert
    intro hk
    obtain ⟨_, _, hfile⟩ := Key.files_prefix_iff.1 hk
    contradiction
  gone n hn := by
    have howner : n.owner.bytes ≠ m.key := (Removal.key_ne_owner n m).symm
    rw [Table.has_eq_false_iff, Table.get?_insert, if_neg howner, Table.get?_erase]
    split
    · rfl
    · rename_i hother
      have hne : n.key ≠ m.key := by
        intro heq
        rw [Removal.key_inj hm heq] at hother
        exact hother rfl
      rw [Table.contains, Table.get?_insert, if_neg hne, Table.get?_erase,
        if_neg (Removal.key_ne_owner m n)] at hn
      exact Table.has_eq_false_iff.1 (h.gone n hn)

/-- The transaction that takes a file out of use sees to it. -/
theorem detachFile (h : Detached t) {r p : String} (hr : Short r) (hp : Short p) {v : Unit}
    (hu : Files.detach r p t = .ok (v, u)) : Detached u := by
  obtain ⟨-, -, rfl⟩ := Files.detach_ok hu
  exact h.replace (m := .path r p) ⟨hr, hp⟩ _

end Detached

end SyncLedger
