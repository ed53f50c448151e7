/-
  SyncLedger/Proofs/Strays.lean
  =============================
  **What belongs to nothing.**  A file belongs to its root.  A version belongs to its path, or to
  its root where that is not registered (`Table.belongsTo?`).  An orphan is a root or path that is
  out of use and that no removal has reserved, and a stray is a key that belongs to an orphan.

  Orphans do not depend on strays.  What one orphan covers can be purged, and the others are
  orphans as before (`Removal.isOrphaned_cleared`).  In a table whose keys can be read, what is
  covered by prefixes is what belongs to the orphan by name (`Removal.covers_iff_belongsTo?`).
-/
import SyncLedger.Proofs.Recovery
import SyncLedger.Proofs.RootErasures

namespace SyncLedger

variable {t s : Records} {r p : String} {k x : Bytes} {m n : Removal}

/-! ### Orphans and strays -/

/-- Every key of a file or version can be read as such. -/
structure Table.WellKeyed (t : Records) : Prop where
  files : ∀ k ∈ t.keysUnder Key.files, (Key.parseFile? k).isSome = true
  versions : ∀ k ∈ t.keysUnder Key.versions, (Key.parseVersion? k).isSome = true

/-- Whether a root is not registered, or a path of a registered root has no file, and no removal
    has reserved it. -/
def Removal.isOrphaned (t : Records) : Removal → Bool
  | .root r => !t.has (.root r) && !t.has (.marker r none)
  | .path r p => t.has (.root r) && !t.has (.file r p) && !t.has (.marker r (some p))

namespace Table

/-- The root or path to which a key belongs.  A version belongs to its path if the root is
    registered, and else to the root; a file belongs to the root in any case. -/
def belongsTo? (t : Records) (k : Bytes) : Option Removal :=
  match Key.parseFile? k, Key.parseVersion? k with
  | some (r, _), _ => some (.root r)
  | none, some (r, p, _) => some (if t.has (.root r) then .path r p else .root r)
  | none, none => none

/-- Whether a key belongs to an orphan. -/
def isStray (t : Records) (k : Bytes) : Bool := (t.belongsTo? k).any (Removal.isOrphaned t)

theorem belongsTo?_file (h : Key.parseFile? k = some (r, p)) : t.belongsTo? k = some (.root r) := by
  unfold belongsTo?
  rw [h]

theorem belongsTo?_version {ts : UInt64} (h : Key.parseVersion? k = some (r, p, ts)) :
    t.belongsTo? k = some (if t.has (.root r) then .path r p else .root r) := by
  have hfile : Key.parseFile? k = none := by
    obtain ⟨-, rfl⟩ := Key.parseVersion?_eq_some_iff.1 h
    apply Key.parseFile?_of_not_prefix
    simp [Key.files_prefix_iff]
  unfold belongsTo?
  rw [hfile, h]

theorem belongsTo?_other (hfile : ¬ Key.files <+: k) (hversion : ¬ Key.versions <+: k) :
    t.belongsTo? k = none := by
  unfold belongsTo?
  rw [Key.parseFile?_of_not_prefix hfile, Key.parseVersion?_of_not_prefix hversion]

theorem belongsTo?_cases (h : t.belongsTo? k = some m) :
    (∃ r p, Key.parseFile? k = some (r, p) ∧ m = .root r) ∨
      ∃ r p ts, Key.parseVersion? k = some (r, p, ts) ∧
        m = if t.has (.root r) then .path r p else .root r := by
  unfold belongsTo? at h
  split at h
  · rename_i _ r p hparse
    exact Or.inl ⟨r, p, hparse, (Option.some.inj h).symm⟩
  · rename_i r p ts _ hparse
    exact Or.inr ⟨r, p, ts, hparse, (Option.some.inj h).symm⟩
  · contradiction

/-- What belongs to a root or path has short names. -/
theorem fits_of_belongsTo? (h : t.belongsTo? k = some m) : m.Fits := by
  rcases belongsTo?_cases h with ⟨r, p, hparse, rfl⟩ | ⟨r, p, ts, hparse, rfl⟩
  · exact (Key.parseFile?_eq_some_iff.1 hparse).1.1
  · obtain ⟨hshort, -⟩ := Key.parseVersion?_eq_some_iff.1 hparse
    split
    · exact hshort
    · exact hshort.1

theorem isStray_iff : t.isStray k = true ↔ ∃ m, t.belongsTo? k = some m ∧ m.isOrphaned t = true :=
  Option.any_eq_true _ _

/-- Only files and versions are strays. -/
theorem isStray_other (hfile : ¬ Key.files <+: k) (hversion : ¬ Key.versions <+: k) :
    t.isStray k = false := by
  rw [isStray, belongsTo?_other hfile hversion]
  rfl

theorem isStray_root (t : Records) (r : String) : t.isStray (Key.root r).bytes = false := by
  apply isStray_other
  · simp [Key.files_prefix_iff]
  · simp [Key.versions_prefix_iff]

theorem isStray_marker (hk : Key.markers <+: k) : t.isStray k = false := by
  apply isStray_other
  · intro h
    exact absurd (Key.mark_unique h hk rfl) (by decide)
  · intro h
    exact absurd (Key.mark_unique h hk rfl) (by decide)

/-- No file of a registered root is a stray. -/
theorem isStray_file (h : t.has (.root r) = true) (p : String) :
    t.isStray (Key.file r p).bytes = false := by
  rw [← Bool.not_eq_true, isStray_iff]
  rintro ⟨m, hm, horphan⟩
  rcases belongsTo?_cases hm with ⟨q, o, hparse, rfl⟩ | ⟨q, o, ts, hparse, -⟩
  · obtain ⟨⟨hq, ho⟩, hkey⟩ := Key.parseFile?_eq_some_iff.1 hparse
    obtain ⟨rfl, -⟩ := (Key.file_bytes_inj_of_short hq ho).1 hkey
    simp [Removal.isOrphaned, h] at horphan
  · obtain ⟨-, hkey⟩ := Key.parseVersion?_eq_some_iff.1 hparse
    have hversion : Key.versions <+: (Key.file r p).bytes :=
      hkey ▸ Key.versions_prefix_iff.2 ⟨q, o, ts, rfl⟩
    simp [Key.versions_prefix_iff] at hversion

/-- A table without the strays of another has none itself, for it has the same orphans. -/
theorem isStray_of_without (h : ∀ k, s.get? k = if t.isStray k then none else t.get? k) :
    s.isStray = t.isStray := by
  have hroot (r : String) : s.has (.root r) = t.has (.root r) :=
    has_congr (by rw [h, isStray_root]; rfl)
  have hmarker (r : String) (p : Option String) : s.has (.marker r p) = t.has (.marker r p) :=
    has_congr (by rw [h, isStray_marker (Key.markers_prefix_iff.2 ⟨r, p, rfl⟩)]; rfl)
  have hbelongs : s.belongsTo? = t.belongsTo? := by
    funext k
    unfold belongsTo?
    simp only [hroot]
  have horphaned : Removal.isOrphaned s = Removal.isOrphaned t := by
    funext m
    cases m with
    | root r => simp only [Removal.isOrphaned, hroot, hmarker]
    | path r p =>
      simp only [Removal.isOrphaned, hroot, hmarker]
      cases hthere : t.has (.root r) with
      | false => rfl
      | true =>
        have hfile : s.has (.file r p) = t.has (.file r p) :=
          has_congr (by rw [h, isStray_file hthere]; rfl)
        rw [hfile]
  funext k
  rw [isStray, isStray, hbelongs, horphaned]

end Table

/-! ### Prefixes and names -/

namespace Removal

theorem covers_file_iff (hr : Short r) (hp : Short p) :
    m.Covers (Key.file r p).bytes ↔ m = .root r := by
  have hkey : (Key.file r p).Fits := ⟨hr, hp⟩
  cases m with
  | root q =>
    simp [Covers, prefixes, Key.filesOf_prefix_iff_of_fits hkey,
      Key.versionsOf_prefix_iff_of_fits hkey, eq_comm]
  | path q o =>
    have hno : ¬ Key.versionsAt q o <+: (Key.file r p).bytes := by
      intro h
      simpa using Key.versions_prefix_iff.1 (Key.versions_prefix_versionsAt.trans h)
    simp [Covers, prefixes, hno]

theorem covers_version_iff (hr : Short r) (hp : Short p) {ts : UInt64} :
    m.Covers (Key.version r p ts).bytes ↔ m = .root r ∨ m = .path r p := by
  have hkey : (Key.version r p ts).Fits := ⟨hr, hp⟩
  cases m with
  | root q =>
    simp [Covers, prefixes, Key.filesOf_prefix_iff_of_fits hkey,
      Key.versionsOf_prefix_iff_of_fits hkey, eq_comm]
  | path q o => simp [Covers, prefixes, Key.versionsAt_prefix_version_iff hr hp]

/-- In a table of keys that can be read, what an orphan covers is what belongs to it. -/
theorem covers_iff_belongsTo? (h : t.WellKeyed) (hk : t.contains k = true)
    (hm : m.isOrphaned t = true) : m.Covers k ↔ t.belongsTo? k = some m := by
  have hthere := Table.contains_iff.1 hk
  by_cases hfile : Key.files <+: k
  · obtain ⟨⟨r, p⟩, hparse⟩ :=
      Option.isSome_iff_exists.1 (h.files k (Table.mem_keysUnder.2 ⟨hfile, hthere⟩))
    obtain ⟨⟨hr, hp⟩, rfl⟩ := Key.parseFile?_eq_some_iff.1 hparse
    rw [covers_file_iff hr hp, Table.belongsTo?_file hparse, Option.some_inj, eq_comm]
  · by_cases hversion : Key.versions <+: k
    · obtain ⟨⟨r, p, ts⟩, hparse⟩ :=
        Option.isSome_iff_exists.1 (h.versions k (Table.mem_keysUnder.2 ⟨hversion, hthere⟩))
      obtain ⟨⟨hr, hp⟩, rfl⟩ := Key.parseVersion?_eq_some_iff.1 hparse
      rw [covers_version_iff hr hp, Table.belongsTo?_version hparse, Option.some_inj]
      -- of a root and a path in it one at most is an orphan
      cases hroot : t.has (.root r) with
      | false =>
        have hpath : m ≠ .path r p := by
          rintro rfl
          simp [isOrphaned, hroot] at hm
        simp [hpath, eq_comm]
      | true =>
        have hpath : m ≠ .root r := by
          rintro rfl
          simp [isOrphaned, hroot] at hm
        simp [hpath, eq_comm]
    · rw [Table.belongsTo?_other hfile hversion]
      constructor
      · intro hcovers
        exact absurd hcovers.family (not_or.2 ⟨hfile, hversion⟩)
      · simp

/-! ### Purging what is covered -/

instance (m : Removal) (k : Bytes) : Decidable (m.Covers k) :=
  inferInstanceAs (Decidable (∃ p ∈ m.prefixes, p <+: k))

/-- The table after the purge of what is covered. -/
def cleared (m : Removal) (t : Records) : Records := m.prefixes.foldl Table.eraseUnder t

/-- What a sweep reports of a root or path. -/
def found (t : Records) : Removal → Sweep.Report
  | .root r => ⟨1, (t.under (Key.filesOf r)).length, (t.under (Key.versionsOf r)).length⟩
  | .path r p => ⟨1, 0, (t.under (Key.versionsAt r p)).length⟩

theorem get?_foldl_eraseUnder (ps : List Bytes) (t : Records) (k : Bytes) :
    (ps.foldl Table.eraseUnder t).get? k = if ∃ p ∈ ps, p <+: k then none else t.get? k := by
  induction ps generalizing t with
  | nil => simp
  | cons p ps ih =>
    rw [List.foldl_cons, ih, Table.get?_eraseUnder]
    by_cases hp : p <+: k
    · simp [hp]
    · simp [hp]

@[simp] theorem get?_cleared (m : Removal) (t : Records) (k : Bytes) :
    (m.cleared t).get? k = if m.Covers k then none else t.get? k :=
  get?_foldl_eraseUnder m.prefixes t k

/-- Purging under a marker, which goes in the end, is purging. -/
theorem erase_cleared_insert (h : t.get? m.key = none) (b : Bytes) :
    (m.cleared (t.insert m.key b)).erase m.key = m.cleared t := by
  apply Table.ext
  intro k
  rw [Table.get?_erase, get?_cleared, get?_cleared, Table.get?_insert]
  by_cases hkey : k = m.key
  · simp [hkey, h]
  · simp [hkey]

theorem has_cleared {key : Key} (h : ¬ m.Covers key.bytes) (t : Records) :
    (m.cleared t).has key = t.has key :=
  Table.has_congr (by rw [get?_cleared, if_neg h])

theorem has_cleared_root (m : Removal) (t : Records) (r : String) :
    (m.cleared t).has (.root r) = t.has (.root r) :=
  has_cleared (fun h => Key.ne_of_family h.family (.root r) (by simp) (by simp) rfl) t

theorem has_cleared_marker (m : Removal) (t : Records) (r : String) (p : Option String) :
    (m.cleared t).has (.marker r p) = t.has (.marker r p) :=
  has_cleared (not_covers_of_marker (Key.markers_prefix_iff.2 ⟨r, p, rfl⟩)) t

/-- The purge of an orphan makes no other root or path an orphan, and rescues none. -/
theorem isOrphaned_cleared (hm : m.isOrphaned t = true) (hn : n.Fits) :
    n.isOrphaned (m.cleared t) = n.isOrphaned t := by
  cases n with
  | root r => simp only [isOrphaned, has_cleared_root, has_cleared_marker]
  | path r p =>
    simp only [isOrphaned, has_cleared_root, has_cleared_marker]
    by_cases hcovers : m.Covers (Key.file r p).bytes
    · -- the file goes with its root, and the paths of that root are no orphans of their own
      obtain rfl := (covers_file_iff hn.1 hn.2).1 hcovers
      have hroot : t.has (.root r) = false := by
        simp only [isOrphaned, Bool.and_eq_true, Bool.not_eq_true'] at hm
        exact hm.1
      simp [hroot]
    · rw [has_cleared hcovers]

/-! ### Counting what is covered -/

/-- A marker is not among files or versions. -/
theorem under_insert_key (hx : Key.files <+: x ∨ Key.versions <+: x) (t : Records) (b : Bytes) :
    (t.insert m.key b).under x = t.under x := by
  apply Table.under_congr
  intro k hk
  have hfamily : Key.files <+: k ∨ Key.versions <+: k :=
    hx.imp (fun h => h.trans hk) fun h => h.trans hk
  have hne : k ≠ m.key := Key.ne_of_family hfamily _ (by simp) (by simp)
  rw [Table.get?_insert, if_neg hne]

theorem found_files (m : Removal) (t : Records) :
    (m.found t).files + ((m.cleared t).under Key.files).length = (t.under Key.files).length := by
  have hkept {y : Bytes} (hy : Key.versions <+: y) (t : Records) :
      (t.eraseUnder y).under Key.files = t.under Key.files :=
    Table.under_eraseUnder_apart t fun k hk hfile =>
      Key.files_apart_versions (List.prefix_refl _) hy k hfile hk
  cases m with
  | root r =>
    have hpurged := Table.length_under_eraseUnder t (List.prefix_append Key.files (Key.segment r))
    rw [← hkept (List.prefix_append Key.versions (Key.segment r)) (t.eraseUnder _)] at hpurged
    exact hpurged
  | path r p =>
    have hpurged := hkept (Key.versions_prefix_versionsAt (r := r) (p := p)) t
    exact (Nat.zero_add _).trans (congrArg List.length hpurged)

theorem found_versions (m : Removal) (t : Records) :
    (m.found t).versions + ((m.cleared t).under Key.versions).length
      = (t.under Key.versions).length := by
  cases m with
  | root r =>
    have hkept {y : Bytes} (hy : Key.versions <+: y) :
        (t.eraseUnder (Key.filesOf r)).under y = t.under y :=
      Table.under_eraseUnder_apart t (Key.files_apart_versions (List.prefix_append _ _) hy)
    have hpurged := Table.length_under_eraseUnder (t.eraseUnder (Key.filesOf r))
      (List.prefix_append Key.versions (Key.segment r))
    rw [hkept (List.prefix_append _ _), hkept (List.prefix_refl _)] at hpurged
    exact hpurged
  | path r p => exact Table.length_under_eraseUnder t Key.versions_prefix_versionsAt

end Removal

end SyncLedger
