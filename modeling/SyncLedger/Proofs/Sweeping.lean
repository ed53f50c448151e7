/-
  SyncLedger/Proofs/Sweeping.lean
  ===============================
  **A sweep removes exactly the strays.**  Which roots and paths to look at is read off the table
  at the beginning, from two scans; then each is reserved, purged and released.  The whole is a
  fold over one list of roots and paths (`Sweep.outcome_orphans`), and as the purge of one orphan
  leaves the others orphans, the fold erases what belongs to the orphans of the first table
  (`Sweep.swept_foldl`).

  A root or path with a marker belongs to the removal that left it there, so its files and versions
  stay.  The next sweep finds them too, and leaves them alone again.
-/
import SyncLedger.Proofs.Cascades
import SyncLedger.Proofs.Conflicts
import SyncLedger.Proofs.Departures
import SyncLedger.Proofs.Strays

namespace SyncLedger

variable {t s : Records} {r p : String} {k : Bytes} {m : Removal} {ms : List Removal}

/-! ### The sweep as a fold -/

namespace Sweep

variable {y z : Report × Records}

/-- One root or path in its turn. -/
def step (y : Report × Records) (m : Removal) : Report × Records :=
  if m.isOrphaned y.2 then (y.1.add (m.found y.2), m.cleared y.2) else y

theorem step_of_orphaned (h : m.isOrphaned y.2 = true) :
    step y m = (y.1.add (m.found y.2), m.cleared y.2) := by
  rw [step, if_pos h]

theorem step_of_not_orphaned (h : m.isOrphaned y.2 = false) : step y m = y := by
  rw [step, h]
  rfl

/-- What is reserved is what is an orphan. -/
theorem reserve_eq (m : Removal) (t : Records) : reserve m.marker.root m.marker.path t =
    if m.isOrphaned t then .ok (true, t.insert m.key (Codec.marker.encode m.marker))
    else .ok (false, t) := by
  cases m with
  | root r =>
    refine (reserve_root r t).trans ?_
    simp only [Removal.isOrphaned, ← Bool.not_or]
    cases t.has (.root r) || t.has (.marker r none) <;> rfl
  | path r p =>
    refine (reserve_path r p t).trans ?_
    have hsame : (t.has (.file r p) || t.has (.marker r (some p)) || !t.has (.root r))
        = !Removal.isOrphaned t (.path r p) := by
      simp only [Removal.isOrphaned]
      cases t.has (.root r) <;> cases t.has (.file r p) <;> simp
    rw [hsame]
    cases Removal.isOrphaned t (.path r p) <;> rfl

theorem reserve_of_orphaned (h : m.isOrphaned t = true) :
    reserve m.marker.root m.marker.path t
      = .ok (true, t.insert m.key (Codec.marker.encode m.marker)) := by
  rw [reserve_eq, if_pos h]

theorem reserve_of_not_orphaned (h : m.isOrphaned t = false) :
    reserve m.marker.root m.marker.path t = .ok (false, t) := by
  rw [reserve_eq, h]
  rfl

/-- An orphan has no marker yet. -/
theorem get?_key (h : m.isOrphaned t = true) : t.get? m.key = none := by
  have hfree : t.has (.marker m.marker.root m.marker.path) = false := by
    cases m with
    | root r | path r p =>
      simp only [Removal.isOrphaned, Bool.and_eq_true, Bool.not_eq_true'] at h
      exact h.2
  exact Table.has_eq_false_iff.1 hfree

theorem outcome_purge_root (h : Removal.isOrphaned t (.root r) = true) (batch : Nat) :
    (Roots.purge r batch).outcome (t.insert (Removal.root r).key
        (Codec.marker.encode (Removal.root r).marker))
      = (.ok ⟨(t.under (Key.filesOf r)).length, (t.under (Key.versionsOf r)).length⟩,
        (Removal.root r).cleared t) := by
  have hfiles : Key.files <+: Key.filesOf r := List.prefix_append _ _
  have hversions : Key.versions <+: Key.versionsOf r := List.prefix_append _ _
  rw [Roots.outcome_purge, Table.under_eraseUnder_apart _ (Key.files_apart_versions hfiles hversions),
    Removal.under_insert_key (Or.inl hfiles), Removal.under_insert_key (Or.inr hversions),
    ← Removal.erase_cleared_insert (get?_key h)]
  rfl

theorem outcome_purge_path (r p : String) (t : Records) (batch : Nat) :
    (History.purge r p batch).outcome (t.insert (Removal.path r p).key
        (Codec.marker.encode (Removal.path r p).marker))
      = (.ok (t.under (Key.versionsAt r p)).length,
        (t.insert (Removal.path r p).key
          (Codec.marker.encode (Removal.path r p).marker)).eraseUnder (Key.versionsAt r p)) := by
  rw [History.purge, outcome_purge,
    Removal.under_insert_key (Or.inr Key.versions_prefix_versionsAt)]

theorem outcome_purgeRoots (batch : Nat) (rs : List String) (y : Report × Records) :
    (purgeRoots batch rs y.1).outcome y.2 = Prod.map .ok id ((rs.map Removal.root).foldl step y) := by
  induction rs generalizing y with
  | nil => rfl
  | cons r rs ih =>
    unfold purgeRoots
    rw [List.map_cons, List.foldl_cons, ← ih]
    cases horphan : Removal.isOrphaned y.2 (.root r) with
    | false =>
      have hreserve : reserve r none y.2 = .ok (false, y.2) := reserve_of_not_orphaned horphan
      rw [Op.outcome_bind_ok (Op.outcome_commit_ok hreserve), step_of_not_orphaned horphan]
      rfl
    | true =>
      have hreserve : reserve r none y.2 = .ok (true, _) := reserve_of_orphaned horphan
      rw [Op.outcome_bind_ok (Op.outcome_commit_ok hreserve), step_of_orphaned horphan]
      exact Op.outcome_bind_ok (outcome_purge_root horphan batch)

theorem outcome_purgePaths (batch : Nat) (ls : List Location) (y : Report × Records) :
    (purgePaths batch ls y.1).outcome y.2
      = Prod.map .ok id ((ls.map fun l => Removal.path l.root l.path).foldl step y) := by
  induction ls generalizing y with
  | nil => rfl
  | cons l ls ih =>
    obtain ⟨r, p⟩ := l
    unfold purgePaths
    rw [List.map_cons, List.foldl_cons, ← ih]
    cases horphan : Removal.isOrphaned y.2 (.path r p) with
    | false =>
      have hreserve : reserve r (some p) y.2 = .ok (false, y.2) := reserve_of_not_orphaned horphan
      rw [Op.outcome_bind_ok (Op.outcome_commit_ok hreserve), step_of_not_orphaned horphan]
      rfl
    | true =>
      have hreserve : reserve r (some p) y.2 = .ok (true, _) := reserve_of_orphaned horphan
      rw [Op.outcome_bind_ok (Op.outcome_commit_ok hreserve), step_of_orphaned horphan,
        ← Removal.erase_cleared_insert (get?_key horphan)]
      exact (Op.outcome_bind_ok (outcome_purge_path r p y.2 batch)).trans
        (Op.outcome_bind_ok (outcome_drop _ _))

/-- The roots and paths that a sweep looks at: roots that are not registered and paths of registered
    roots without a file, as far as something is left of them. -/
def items (t : Records) : List Removal :=
  (deadRoots t).map .root ++ (deadPaths t).map fun l => .path l.root l.path

theorem outcome_orphans (batch : Nat) (t : Records) :
    (orphans batch).outcome t = Prod.map .ok id ((items t).foldl step ({}, t)) := by
  have hread {α : Type} (f : Records → α) :
      (Op.read fun t => .ok (f t)).outcome t = (.ok (f t), t) := rfl
  have hroots := outcome_purgeRoots batch (deadRoots t) ({}, t)
  unfold orphans items
  rw [List.foldl_append, ← outcome_purgePaths batch, Op.outcome_bind_ok (hread deadRoots),
    Op.outcome_bind_ok (hread deadPaths)]
  exact Op.outcome_bind_ok hroots

/-! ### What the fold does -/

/-- What has become of a report and a table when the orphans among some roots and paths are gone. -/
structure Swept (ms : List Removal) (y z : Report × Records) : Prop where
  table : ∀ k, z.2.get? k
    = if ∃ m ∈ ms, m.isOrphaned y.2 = true ∧ m.Covers k then none else y.2.get? k
  files : z.1.files + (z.2.under Key.files).length = y.1.files + (y.2.under Key.files).length
  versions : z.1.versions + (z.2.under Key.versions).length
    = y.1.versions + (y.2.under Key.versions).length
  cascades : z.1.cascades = y.1.cascades + (ms.filter (Removal.isOrphaned y.2)).length

theorem Swept.nil (y : Report × Records) : Swept [] y y where
  table := by simp
  files := rfl
  versions := rfl
  cascades := rfl

/-- What is no orphan is passed over. -/
theorem Swept.skip (h : m.isOrphaned y.2 = false) (hrest : Swept ms y z) : Swept (m :: ms) y z where
  table k := by
    rw [hrest.table]
    simp [h]
  files := hrest.files
  versions := hrest.versions
  cascades := by rw [hrest.cascades, List.filter_cons_of_neg (by simp [h])]

/-- An orphan goes, and the others are orphans as before. -/
theorem Swept.take (h : m.isOrphaned y.2 = true)
    (hsame : ∀ n ∈ ms, n.isOrphaned (m.cleared y.2) = n.isOrphaned y.2)
    (hrest : Swept ms (y.1.add (m.found y.2), m.cleared y.2) z) : Swept (m :: ms) y z where
  table k := by
    have hothers : (∃ n ∈ ms, n.isOrphaned (m.cleared y.2) = true ∧ n.Covers k)
        ↔ ∃ n ∈ ms, n.isOrphaned y.2 = true ∧ n.Covers k :=
      exists_congr fun n => and_congr_right fun hn => by rw [hsame n hn]
    rw [hrest.table, Removal.get?_cleared]
    simp only [hothers, List.exists_mem_cons_iff, h, true_and]
    by_cases hcovers : m.Covers k
    · simp [hcovers]
    · simp [hcovers]
  files := by
    have hfound := m.found_files y.2
    have hfiles := hrest.files
    simp only [Report.add] at hfiles
    omega
  versions := by
    have hfound := m.found_versions y.2
    have hversions := hrest.versions
    simp only [Report.add] at hversions
    omega
  cascades := by
    have hone : (m.found y.2).cascades = 1 := by cases m <;> rfl
    rw [hrest.cascades, List.filter_cons_of_pos h, List.filter_congr hsame]
    simp only [Report.add, hone, List.length_cons]
    omega

theorem swept_foldl (hms : ∀ m ∈ ms, m.Fits) (y : Report × Records) :
    Swept ms y (ms.foldl step y) := by
  induction ms generalizing y with
  | nil => exact Swept.nil y
  | cons m ms ih =>
    have hrest (z : Report × Records) : Swept ms z (ms.foldl step z) :=
      ih (fun n hn => hms n (List.mem_cons_of_mem m hn)) z
    rw [List.foldl_cons]
    cases h : m.isOrphaned y.2 with
    | false =>
      rw [step_of_not_orphaned h]
      exact Swept.skip h (hrest y)
    | true =>
      have hsame : ∀ n ∈ ms, n.isOrphaned (m.cleared y.2) = n.isOrphaned y.2 :=
        fun n hn => Removal.isOrphaned_cleared h (hms n (List.mem_cons_of_mem m hn))
      rw [step_of_orphaned h]
      exact Swept.take h hsame (hrest _)

/-! ### What a sweep looks at -/

theorem mem_deadRoots : r ∈ deadRoots t ↔ t.has (.root r) = false ∧
    ((∃ k ∈ t.keysUnder Key.files, ∃ p, Key.parseFile? k = some (r, p)) ∨
      ∃ k ∈ t.keysUnder Key.versions, ∃ p ts, Key.parseVersion? k = some (r, p, ts)) := by
  unfold deadRoots
  rw [OrderedSet.mem_toList, OrderedSet.mem_ofList, List.mem_filter, List.mem_append, and_comm]
  simp [List.mem_filterMap]

namespace Location

instance : Std.Irrefl (α := Location) (· < ·) where
  irrefl l h := by
    rcases h with h | ⟨-, h⟩
    · exact lt_irrefl _ h
    · exact lt_irrefl _ h

instance : Std.Trichotomous (α := Location) (· < ·) where
  trichotomous := by
    rintro ⟨r, p⟩ ⟨q, o⟩ hab hba
    rcases lt_trichotomy r q with hlt | rfl | hgt
    · exact absurd (Or.inl hlt) hab
    · rcases lt_trichotomy p o with hlt | rfl | hgt
      · exact absurd (Or.inr ⟨rfl, hlt⟩) hab
      · rfl
      · exact absurd (Or.inr ⟨rfl, hgt⟩) hba
    · exact absurd (Or.inl hgt) hba

end Location

theorem mem_deadPaths : ⟨r, p⟩ ∈ deadPaths t ↔
    (t.has (.root r) = true ∧ t.has (.file r p) = false) ∧
      ∃ k ∈ t.keysUnder Key.versions, ∃ ts, Key.parseVersion? k = some (r, p, ts) := by
  unfold deadPaths
  rw [OrderedSet.mem_toList, OrderedSet.mem_ofList, List.mem_filter, and_comm]
  simp [List.mem_filterMap]

theorem mem_items_root : .root r ∈ items t ↔ r ∈ deadRoots t := by
  simp [items]

theorem mem_items_path : .path r p ∈ items t ↔ ⟨r, p⟩ ∈ deadPaths t := by
  simp only [items, List.mem_append, List.mem_map, reduceCtorEq, and_false, exists_false,
    Removal.path.injEq, false_or]
  constructor
  · rintro ⟨l, hl, rfl, rfl⟩
    exact hl
  · exact fun hl => ⟨_, hl, rfl, rfl⟩

theorem exists_of_mem_items (h : m ∈ items t) :
    ∃ k, t.contains k = true ∧ t.belongsTo? k = some m := by
  cases m with
  | root r =>
    obtain ⟨hroot, hlisted⟩ := mem_deadRoots.1 (mem_items_root.1 h)
    rcases hlisted with ⟨k, hk, p, hparse⟩ | ⟨k, hk, p, ts, hparse⟩
    · exact ⟨k, Table.contains_iff.2 (Table.mem_keysUnder.1 hk).2, Table.belongsTo?_file hparse⟩
    · refine ⟨k, Table.contains_iff.2 (Table.mem_keysUnder.1 hk).2, ?_⟩
      rw [Table.belongsTo?_version hparse, hroot]
      rfl
  | path r p =>
    obtain ⟨⟨hroot, -⟩, k, hk, ts, hparse⟩ := mem_deadPaths.1 (mem_items_path.1 h)
    refine ⟨k, Table.contains_iff.2 (Table.mem_keysUnder.1 hk).2, ?_⟩
    rw [Table.belongsTo?_version hparse, if_pos hroot]

theorem fits_of_mem_items (h : m ∈ items t) : m.Fits := by
  obtain ⟨k, -, hk⟩ := exists_of_mem_items h
  exact Table.fits_of_belongsTo? hk

/-- A sweep looks at every orphan of which something is left. -/
theorem mem_items (hm : m.isOrphaned t = true) (hk : t.contains k = true)
    (hbelongs : t.belongsTo? k = some m) : m ∈ items t := by
  have hthere := Table.contains_iff.1 hk
  rcases Table.belongsTo?_cases hbelongs with ⟨r, p, hparse, rfl⟩ | ⟨r, p, ts, hparse, hwith⟩
  · simp only [Removal.isOrphaned, Bool.and_eq_true, Bool.not_eq_true'] at hm
    obtain ⟨-, hkey⟩ := Key.parseFile?_eq_some_iff.1 hparse
    have hfile : Key.files <+: k := hkey ▸ Key.files_prefix_iff.2 ⟨r, p, rfl⟩
    exact mem_items_root.2 (mem_deadRoots.2
      ⟨hm.1, Or.inl ⟨k, Table.mem_keysUnder.2 ⟨hfile, hthere⟩, p, hparse⟩⟩)
  · obtain ⟨-, hkey⟩ := Key.parseVersion?_eq_some_iff.1 hparse
    have hversion : Key.versions <+: k := hkey ▸ Key.versions_prefix_iff.2 ⟨r, p, ts, rfl⟩
    have hlisted := Table.mem_keysUnder.2 ⟨hversion, hthere⟩
    cases hroot : t.has (.root r) with
    | false =>
      rw [hroot] at hwith
      obtain rfl : m = .root r := hwith
      exact mem_items_root.2 (mem_deadRoots.2 ⟨hroot, Or.inr ⟨k, hlisted, p, ts, hparse⟩⟩)
    | true =>
      rw [hroot] at hwith
      obtain rfl : m = .path r p := hwith
      simp only [Removal.isOrphaned, Bool.and_eq_true, Bool.not_eq_true'] at hm
      exact mem_items_path.2 (mem_deadPaths.2 ⟨hm.1, k, hlisted, ts, hparse⟩)

theorem nodup_items (t : Records) : (items t).Nodup := by
  have hroots : ((deadRoots t).map Removal.root).Nodup :=
    (OrderedSet.nodup_toList _).map fun r q h => Removal.root.inj h
  have hpaths : ((deadPaths t).map fun l => Removal.path l.root l.path).Nodup := by
    refine (OrderedSet.nodup_toList _).map ?_
    rintro ⟨r, p⟩ ⟨q, o⟩ h
    obtain ⟨rfl, rfl⟩ := Removal.path.inj h
    rfl
  refine List.nodup_append.2 ⟨hroots, hpaths, ?_⟩
  intro a ha b hb
  obtain ⟨r, -, rfl⟩ := List.mem_map.1 ha
  obtain ⟨q, -, rfl⟩ := List.mem_map.1 hb
  simp

/-! ### The theorem -/

/-- A report and a table say that the strays of another table were removed, and nothing else. -/
structure Exact (t : Records) (report : Report) (s : Records) : Prop where
  table : ∀ k, s.get? k = if t.isStray k then none else t.get? k
  files : report.files = ((t.keysUnder Key.files).filter t.isStray).length
  versions : report.versions = ((t.keysUnder Key.versions).filter t.isStray).length
  /-- The orphans of which there is a file or a version, each counted once. -/
  cascades : ∃ ms : List Removal, ms.Nodup ∧ report.cascades = ms.length ∧
    ∀ m, m ∈ ms ↔ m.isOrphaned t = true ∧ ∃ k, t.contains k = true ∧ t.belongsTo? k = some m

/-- The orphans that are looked at own the strays. -/
theorem exists_mem_items_iff (h : t.WellKeyed) (hk : t.contains k = true) :
    (∃ m ∈ items t, m.isOrphaned t = true ∧ m.Covers k) ↔ t.isStray k = true := by
  rw [Table.isStray_iff]
  constructor
  · rintro ⟨m, -, hm, hcovers⟩
    exact ⟨m, (Removal.covers_iff_belongsTo? h hk hm).1 hcovers, hm⟩
  · rintro ⟨m, hbelongs, hm⟩
    exact ⟨m, mem_items hm hk hbelongs, hm, (Removal.covers_iff_belongsTo? h hk hm).2 hbelongs⟩

theorem Swept.exact {report : Report} (h : t.WellKeyed)
    (hswept : Swept (items t) ({}, t) (report, s)) : Exact t report s := by
  have htable (k : Bytes) : s.get? k = if t.isStray k then none else t.get? k := by
    rw [hswept.table]
    dsimp only
    cases hk : t.contains k with
    | false => rw [Table.contains_eq_false_iff.1 hk, ite_self, ite_self]
    | true => simp only [exists_mem_items_iff h hk]
  constructor
  case table => exact htable
  case files => exact Table.length_gone htable (hswept.files.trans (Nat.zero_add _))
  case versions => exact Table.length_gone htable (hswept.versions.trans (Nat.zero_add _))
  case cascades =>
    refine ⟨(items t).filter (Removal.isOrphaned t), (nodup_items t).filter _,
      hswept.cascades.trans (Nat.zero_add _), ?_⟩
    intro m
    rw [List.mem_filter, and_comm]
    apply and_congr_right
    intro hm
    constructor
    · exact exists_of_mem_items
    · rintro ⟨k, hk, hbelongs⟩
      exact mem_items hm hk hbelongs

theorem exists_exact (h : t.WellKeyed) (batch : Nat) :
    ∃ report s, (orphans batch).outcome t = (.ok report, s) ∧ Exact t report s :=
  ⟨_, _, outcome_orphans batch t, (swept_foldl (fun _ => fits_of_mem_items) ({}, t)).exact h⟩

namespace Exact

variable {report : Report} (h : Exact t report s)
include h

theorem sub : s.Sub t := by
  intro k b hb
  rw [h.table] at hb
  split at hb
  · contradiction
  · exact hb

theorem wellKeyed (ht : t.WellKeyed) : s.WellKeyed := by
  have hkept {x k : Bytes} (hk : k ∈ s.keysUnder x) : k ∈ t.keysUnder x := by
    obtain ⟨hx, b, hb⟩ := Table.mem_keysUnder.1 hk
    exact Table.mem_keysUnder.2 ⟨hx, b, h.sub k b hb⟩
  exact ⟨fun k hk => ht.files k (hkept hk), fun k hk => ht.versions k (hkept hk)⟩

theorem markers : s.under Key.markers = t.under Key.markers := by
  apply Table.under_congr
  intro k hk
  rw [h.table, Table.isStray_marker hk]
  rfl

/-- No strays are left. -/
theorem not_isStray (hk : s.contains k = true) : s.isStray k = false := by
  rw [Table.isStray_of_without h.table, ← Bool.not_eq_true]
  intro hstray
  obtain ⟨b, hb⟩ := Table.contains_iff.1 hk
  rw [h.table, if_pos hstray] at hb
  contradiction

end Exact

/-- Where there are no strays, nothing is removed and nothing reported. -/
theorem Exact.eq_of_no_strays {report : Report} (h : Exact t report s)
    (hno : ∀ k, t.contains k = true → t.isStray k = false) : report = {} ∧ s = t := by
  have hkeys (x : Bytes) : (t.keysUnder x).filter t.isStray = [] := by
    apply List.filter_eq_nil_iff.2
    intro k hk
    rw [hno k (Table.contains_iff.2 (Table.mem_keysUnder.1 hk).2)]
    exact Bool.false_ne_true
  obtain ⟨ms, -, hcascades, hms⟩ := h.cascades
  have hnone : ms = [] := by
    apply List.eq_nil_iff_forall_not_mem.2
    intro m hm
    obtain ⟨horphan, k, hk, hbelongs⟩ := (hms m).1 hm
    have hstray := Table.isStray_iff.2 ⟨m, hbelongs, horphan⟩
    exact absurd ((hno k hk).symm.trans hstray) Bool.false_ne_true
  constructor
  · have hfiles := h.files
    have hversions := h.versions
    rw [hkeys, List.length_nil] at hfiles hversions
    rw [hnone, List.length_nil] at hcascades
    cases report
    simp_all
  · apply Table.ext
    intro k
    rw [h.table]
    cases hk : t.contains k with
    | false => rw [Table.contains_eq_false_iff.1 hk, ite_self]
    | true =>
      rw [hno k hk]
      rfl

end Sweep

/-- **A sweep removes exactly the strays.**  Let every key of a file or version be readable, and
    let live records, orphans and markers be mixed in any way, with any values.  The sweep succeeds.
    Of the table it leaves every key but the files and versions that belong to an orphan: to a root
    that is neither registered nor marked, or to a path of a registered root that has neither a file
    nor a marker.  So the markers are those that were there.  It reports how many files and how many
    versions it removed, and how many roots and paths they belonged to.  A second sweep reports
    nothing and changes nothing. -/
theorem sweepOrphans_exact (h : t.WellKeyed) (e : Engine) :
    ∃ report s, e.sweepOrphans.outcome t = (.ok report, s) ∧
      (∀ k, s.get? k = if t.isStray k then none else t.get? k) ∧
      s.under Key.markers = t.under Key.markers ∧
      report.files = ((t.keysUnder Key.files).filter t.isStray).length ∧
      report.versions = ((t.keysUnder Key.versions).filter t.isStray).length ∧
      (∃ ms : List Removal, ms.Nodup ∧ report.cascades = ms.length ∧
        ∀ m, m ∈ ms ↔
          m.isOrphaned t = true ∧ ∃ k, t.contains k = true ∧ t.belongsTo? k = some m) ∧
      ∀ e' : Engine, e'.sweepOrphans.outcome s = (.ok {}, s) := by
  obtain ⟨report, s, houtcome, hexact⟩ := Sweep.exists_exact h e.batch
  refine ⟨report, s, houtcome, hexact.table, hexact.markers, hexact.files, hexact.versions,
    hexact.cascades, ?_⟩
  intro e'
  obtain ⟨again, u, hagain, hexact'⟩ := Sweep.exists_exact (hexact.wellKeyed h) e'.batch
  obtain ⟨rfl, rfl⟩ := hexact'.eq_of_no_strays fun k => hexact.not_isStray
  exact hagain

/-- A table after a file and a root have been taken out of use, with something of the root still to
    be purged, a path that has lost its file, and records of a root that was never registered. -/
def Session.mixed : Records :=
  (((Session.reserved.records.erase (Key.file "r" "b").bytes).insert (Key.file "q" "a").bytes
    []).insert (Key.file "z" "a").bytes []).insert (Key.version "z" "c" 7).bytes []

/-- What belongs to the two removals in progress stays, and what belongs to nothing goes. -/
theorem swept_beside_removals :
    let t := Session.mixed
    t.WellKeyed ∧ ∃ s, Session.plain.sweepOrphans.outcome t = (.ok ⟨2, 1, 2⟩, s) ∧
      s.get? (Key.file "q" "a").bytes = t.get? (Key.file "q" "a").bytes ∧
      s.get? (Key.version "r" "a" 1).bytes = t.get? (Key.version "r" "a" 1).bytes ∧
      s.get? (Key.version "r" "b" 2).bytes = none ∧ s.get? (Key.file "z" "a").bytes = none ∧
      Session.plain.sweepOrphans.outcome s = (.ok {}, s) := by
  intro t
  have hkeyed : t.WellKeyed := ⟨by decide +kernel, by decide +kernel⟩
  refine ⟨hkeyed, ?_⟩
  obtain ⟨⟨cascades, files, versions⟩, s, houtcome, htable, -, hfiles, hversions,
    ⟨ms, hnodup, hcascades, hms⟩, hagain⟩ := sweepOrphans_exact hkeyed Session.plain
  have hstrays : ∀ e ∈ t.entries, t.isStray e.1 = true →
      t.belongsTo? e.1 = some (.root "z") ∨ t.belongsTo? e.1 = some (.path "r" "b") := by
    decide +kernel
  have horphans : ms.Perm [.root "z", .path "r" "b"] := by
    refine (List.perm_ext_iff_of_nodup hnodup (by decide)).2 fun m => ?_
    rw [hms, List.mem_pair]
    constructor
    · rintro ⟨horphan, k, hk, hbelongs⟩
      obtain ⟨b, hb⟩ := Table.contains_iff.1 hk
      have hstray := Table.isStray_iff.2 ⟨m, hbelongs, horphan⟩
      simpa [hbelongs] using hstrays (k, b) (Table.get?_eq_some_iff.1 hb) hstray
    · rintro (rfl | rfl)
      · exact ⟨by decide +kernel, (Key.file "z" "a").bytes, by decide +kernel, by decide +kernel⟩
      · exact ⟨by decide +kernel, (Key.version "r" "b" 2).bytes, by decide +kernel,
          by decide +kernel⟩
  have hfile : ((t.keysUnder Key.files).filter t.isStray).length = 1 := by decide +kernel
  have htwo : ((t.keysUnder Key.versions).filter t.isStray).length = 2 := by decide +kernel
  obtain rfl : cascades = 2 := hcascades.trans horphans.length_eq
  obtain rfl : files = 1 := hfiles.trans hfile
  obtain rfl : versions = 2 := hversions.trans htwo
  refine ⟨s, houtcome, ?_, ?_, ?_, ?_, hagain _⟩
  · exact (htable _).trans (if_neg (by decide +kernel))
  · exact (htable _).trans (if_neg (by decide +kernel))
  · exact (htable _).trans (if_pos (by decide +kernel))
  · exact (htable _).trans (if_pos (by decide +kernel))

end SyncLedger
