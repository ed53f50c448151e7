/-
  SyncLedger/Proofs/Visibility.lean
  =================================
  **Readers do not see what a removal has not yet purged.**  While a root or a path is removed
  its files and versions stand in the table without a root record, or without a file record,
  over them.  `Table.withoutOrphans` is the table that has them erased.  Every reader answers
  alike on both tables (`readAlike_withoutOrphans`), for names of any length and for every mixture
  of live records and orphans.

  The table need not come from a run.  All that is asked of it is that its files and versions
  can be read and stand under keys of their own (`Filed`).  The readers decide in different ways:
  some look at the record above first, some filter a scan by the key, some by the value.  That
  the last two agree is what a key of one's own is for.
-/
import SyncLedger.Proofs.Invariants

namespace SyncLedger

variable {t : Records} {r p : String} {k pre : Bytes}

/-- Files and versions can be read and stand under keys of their own.  A rename has two. -/
structure Filed (t : Records) : Prop where
  file : ∀ k b, Key.files <+: k → t.get? k = some b →
    ∃ f, Codec.file.read? b = some f ∧ Key.parseFile? k = some (f.root, f.path)
  version : ∀ k b, Key.versions <+: k → t.get? k = some b →
    ∃ v p, Codec.version.read? b = some v ∧ v.Touches p ∧
      Key.parseVersion? k = some (v.root, p, v.timestamp)

namespace Table

/-- Whether a key is that of a file or version whose root is not registered, or that of a version
    of a path without a file record. -/
def isOrphan (t : Records) (k : Bytes) : Bool :=
  match Key.parseFile? k, Key.parseVersion? k with
  | some (r, _), _ => !t.has (.root r)
  | none, some (r, p, _) => !(t.has (.root r) && t.has (.file r p))
  | none, none => false

/-- The table after everything that is being removed has been purged. -/
def withoutOrphans (t : Records) : Records :=
  ⟨t.entries.filter (fun e => !isOrphan t e.1), t.ordered.filter _⟩

theorem get?_withoutOrphans (t : Records) (k : Bytes) :
    t.withoutOrphans.get? k = if isOrphan t k then none else t.get? k := by
  have hfilter := lookupIn_filter (fun k => !isOrphan t k) k t.entries
  simp only [get?, withoutOrphans, hfilter]
  cases isOrphan t k <;> rfl

theorem get?_withoutOrphans_of_eq_false (h : isOrphan t k = false) :
    t.withoutOrphans.get? k = t.get? k := by
  rw [get?_withoutOrphans, h]
  rfl

/-! ### Keys that stay -/

theorem isOrphan_root (t : Records) (r : String) : isOrphan t (Key.root r).bytes = false := by
  have hfile : ¬ Key.files <+: (Key.root r).bytes := by simp [Key.files_prefix_iff]
  have hversion : ¬ Key.versions <+: (Key.root r).bytes := by simp [Key.versions_prefix_iff]
  unfold isOrphan
  rw [Key.parseFile?_of_not_prefix hfile, Key.parseVersion?_of_not_prefix hversion]

theorem isOrphan_file (h : t.has (.root r) = true) (p : String) :
    isOrphan t (Key.file r p).bytes = false := by
  have hversion : ¬ Key.versions <+: (Key.file r p).bytes := by simp [Key.versions_prefix_iff]
  unfold isOrphan
  rw [Key.parseVersion?_of_not_prefix hversion]
  cases hparse : Key.parseFile? (Key.file r p).bytes with
  | none => rfl
  | some name =>
    obtain ⟨⟨hq, ho⟩, hkey⟩ := Key.parseFile?_eq_some_iff.1 hparse
    obtain ⟨hroot, -⟩ := (Key.file_bytes_inj_of_short hq ho).1 hkey
    simp [← hroot, h]

theorem isOrphan_version (hroot : t.has (.root r) = true) (hfile : t.has (.file r p) = true)
    (ts : UInt64) : isOrphan t (Key.version r p ts).bytes = false := by
  have hprefix : ¬ Key.files <+: (Key.version r p ts).bytes := by simp [Key.files_prefix_iff]
  unfold isOrphan
  rw [Key.parseFile?_of_not_prefix hprefix]
  cases hparse : Key.parseVersion? (Key.version r p ts).bytes with
  | none => rfl
  | some name =>
    obtain ⟨⟨hq, ho⟩, hkey⟩ := Key.parseVersion?_eq_some_iff.1 hparse
    obtain ⟨rfl, rfl, -⟩ := (Key.version_bytes_inj_of_short hq ho).1 hkey
    simp [hroot, hfile]

@[simp] theorem has_root_withoutOrphans (t : Records) (r : String) :
    t.withoutOrphans.has (.root r) = t.has (.root r) :=
  has_congr (get?_withoutOrphans_of_eq_false (isOrphan_root t r))

theorem has_file_withoutOrphans (h : t.has (.root r) = true) (p : String) :
    t.withoutOrphans.has (.file r p) = t.has (.file r p) :=
  has_congr (get?_withoutOrphans_of_eq_false (isOrphan_file h p))

/-! ### Scans -/

theorem under_withoutOrphans (t : Records) (pre : Bytes) :
    t.withoutOrphans.under pre = (t.under pre).filter (fun e => !isOrphan t e.1) := by
  simp only [under, withoutOrphans, List.filter_filter]
  apply List.filter_congr
  intro e _
  exact Bool.and_comm _ _

/-- Entries that are left out by their keys are missing from what is read, and that is all. -/
theorem decodeAll_filter {α : Type} {c : Codec α} (q : Bytes → Bool) {es : List (Bytes × Bytes)}
    {vs : List (Bytes × α)} (h : decodeAll c es = .ok vs) :
    decodeAll c (es.filter (fun e => q e.1)) = .ok (vs.filter (fun e => q e.1)) := by
  rw [decodeAll_eq_ok_iff] at h ⊢
  induction h with
  | nil => exact List.Forall₂.nil
  | @cons e v es vs hstep _ ih =>
    obtain ⟨hkey, hvalue⟩ := hstep
    rw [List.filter_cons, List.filter_cons, hkey]
    split
    · exact List.Forall₂.cons ⟨hkey, hvalue⟩ ih
    · exact ih

theorem scan_withoutOrphans {α : Type} {c : Codec α} {vs : List (Bytes × α)}
    (h : t.scan c pre = .ok vs) :
    t.withoutOrphans.scan c pre = .ok (vs.filter (fun e => !isOrphan t e.1)) := by
  rw [scan, under_withoutOrphans]
  exact decodeAll_filter (fun k => !isOrphan t k) h

end Table

/-! ### Readers made of readers -/

open Op

section Parts

variable {s : Records} {ts : UInt64}

theorem Engine.agrees_download_of (h : Agrees (History.get r p ts) s t) (e : Engine)
    (contents : Contents) : Agrees (e.download contents r p ts) s t := by
  apply h.bind
  intro v _
  split
  · exact agrees_fail _
  · split
    · exact agrees_pure _
    · exact agrees_fail _
    · exact agrees_fail _

theorem Files.agrees_listPath_of (h : Agrees (Files.latest r p) s t) :
    Agrees (Files.list (.path r p)) s t := by
  apply h.attempt.bind
  intro answer _
  split
  · exact agrees_pure _
  · exact agrees_pure _
  · exact agrees_fail _

theorem Engine.agrees_checkEach_of {fs : List File}
    (h : ∀ f ∈ fs, Agrees (History.latest r f.path) s t) :
    Agrees (Engine.checkEach r fs) s t := by
  induction fs with
  | nil => exact agrees_pure ()
  | cons f fs ih =>
    apply (h f List.mem_cons_self).bind
    intro newest _
    have hcheck : Agrees (Op.read fun _ => History.check f newest) s t := agrees_read rfl
    apply hcheck.bind
    intro _ _
    exact ih fun g hg => h g (List.mem_cons_of_mem f hg)

theorem Engine.agrees_verifyRoot_of (hget : Agrees (Roots.get r) s t)
    (hlist : Agrees (Files.list (.root r)) s t)
    (hlatest : ∀ fs, (Files.list (.root r) t).answer = .ok fs →
      ∀ f ∈ fs, Agrees (History.latest r f.path) s t) : Agrees (Engine.verifyRoot r) s t := by
  apply hget.bind
  intro _ _
  apply hlist.bind
  intro fs hfs
  exact (Engine.agrees_checkEach_of (hlatest fs hfs)).bind fun _ _ => agrees_pure _

end Parts

/-! ### Readers that look at the record above first -/

theorem Roots.agrees_get (t : Records) (r : String) : Agrees (Roots.get r) t.withoutOrphans t := by
  apply agrees_read
  rw [Table.fetch_congr (Table.get?_withoutOrphans_of_eq_false (Table.isOrphan_root t r))]

theorem Files.agrees_latest (t : Records) (r p : String) :
    Agrees (Files.latest r p) t.withoutOrphans t := by
  apply agrees_read
  rw [Table.has_root_withoutOrphans]
  cases hroot : t.has (.root r) with
  | false => rfl
  | true => rw [Table.fetch_congr (Table.get?_withoutOrphans_of_eq_false
      (Table.isOrphan_file hroot p))]

theorem History.agrees_get (t : Records) (r p : String) (ts : UInt64) :
    Agrees (History.get r p ts) t.withoutOrphans t := by
  apply agrees_read
  unfold History.requireFile
  rw [Table.has_root_withoutOrphans]
  cases hroot : t.has (.root r) with
  | false => rfl
  | true =>
    rw [Table.has_file_withoutOrphans hroot]
    cases hfile : t.has (.file r p) with
    | false => rfl
    | true => rw [Table.fetch_congr (Table.get?_withoutOrphans_of_eq_false
        (Table.isOrphan_version hroot hfile ts))]

theorem Engine.agrees_download (t : Records) (e : Engine) (contents : Contents) (r p : String)
    (ts : UInt64) : Agrees (e.download contents r p ts) t.withoutOrphans t :=
  Engine.agrees_download_of (History.agrees_get t r p ts) e contents

/-! ### Readers that filter a scan -/

namespace Filed

theorem exists_scan_files (h : Filed t) (hpre : Key.files <+: pre) :
    ∃ fs, t.scan Codec.file pre = .ok fs ∧
      ∀ e ∈ fs, Key.parseFile? e.1 = some (e.2.root, e.2.path) := by
  have hread : ∀ e ∈ t.under pre, ∃ f, Codec.file.read? e.2 = some f := by
    intro e he
    obtain ⟨hp, hv⟩ := Table.mem_under.1 he
    obtain ⟨f, hf, -⟩ := h.file e.1 e.2 (hpre.trans hp) hv
    exact ⟨f, hf⟩
  obtain ⟨fs, hfs⟩ := Table.exists_decodeAll hread
  refine ⟨fs, hfs, ?_⟩
  rintro ⟨k, f⟩ he
  obtain ⟨hp, hfetch⟩ := (Table.mem_scan hfs).1 he
  obtain ⟨b, hb, hf⟩ := Table.fetch_eq_some_iff.1 hfetch
  obtain ⟨f', hf', hparse⟩ := h.file k b (hpre.trans hp) hb
  obtain rfl : f' = f := Option.some.inj (hf'.symm.trans hf)
  exact hparse

theorem exists_scan_versions (h : Filed t) (hpre : Key.versions <+: pre) :
    ∃ vs, t.scan Codec.version pre = .ok vs := by
  apply Table.exists_decodeAll
  intro e he
  obtain ⟨hp, hv⟩ := Table.mem_under.1 he
  obtain ⟨v, _, hread, -⟩ := h.version e.1 e.2 (hpre.trans hp) hv
  exact ⟨v, hread⟩

/-- The files of registered roots are those that are no orphans: the root in a file is the one in
    its key. -/
theorem agrees_listUnder (h : Filed t) (hpre : Key.files <+: pre) :
    Agrees (Files.listUnder pre) t.withoutOrphans t := by
  obtain ⟨fs, hfs, hkeys⟩ := h.exists_scan_files hpre
  have hlive : ∀ e ∈ fs, (t.has (.root e.2.root) && !Table.isOrphan t e.1)
      = t.has (.root e.2.root) := by
    intro e he
    simp [Table.isOrphan, hkeys e he]
  apply agrees_read
  rw [Table.scan_withoutOrphans hfs, hfs]
  show Except.ok (((fs.filter fun e => !Table.isOrphan t e.1).map (·.2)).filter
      fun f => t.withoutOrphans.has (.root f.root))
    = .ok ((fs.map (·.2)).filter fun f => t.has (.root f.root))
  simp only [Table.has_root_withoutOrphans]
  rw [List.filter_map, List.filter_map, List.filter_filter]
  exact congrArg (fun es => Except.ok (es.map (·.2))) (List.filter_congr hlive)

theorem agrees_listFiles (h : Filed t) (scope : Scope) :
    Agrees (Files.list scope) t.withoutOrphans t := by
  cases scope with
  | all => exact h.agrees_listUnder List.prefix_rfl
  | root r => exact h.agrees_listUnder (List.prefix_append _ _)
  | path r p => exact Files.agrees_listPath_of (Files.agrees_latest t r p)

/-- A version that is listed is no orphan. -/
theorem isOrphan_of_isListed {scope : Scope} {e : Bytes × Version}
    (h : History.isListed t scope e = true) : Table.isOrphan t e.1 = false := by
  unfold History.isListed at h
  split at h
  · contradiction
  · rename_i q o ts hparse
    obtain ⟨-, hkey⟩ := Key.parseVersion?_eq_some_iff.1 hparse
    rw [Bool.and_eq_true, Bool.and_eq_true] at h
    rw [hkey]
    exact Table.isOrphan_version h.1.1 h.1.2 ts

/-- Whether a version is listed does not depend on orphans.  The file that makes a rename a second
    copy is one of the same root. -/
theorem isListed_withoutOrphans (h : Filed t) {scope : Scope} {e : Bytes × Version}
    (he : Key.versions <+: e.1 ∧ t.fetch Codec.version e.1 = .ok (some e.2)) :
    History.isListed t.withoutOrphans scope e = History.isListed t scope e := by
  obtain ⟨b, hb, hread⟩ := Table.fetch_eq_some_iff.1 he.2
  obtain ⟨v, p, hread', -, hparse⟩ := h.version e.1 b he.1 hb
  obtain rfl : v = e.2 := Option.some.inj (hread'.symm.trans hread)
  simp only [History.isListed, hparse, Table.has_root_withoutOrphans]
  cases hroot : t.has (.root e.2.root) with
  | false => rfl
  | true => simp only [Table.has_file_withoutOrphans hroot]

theorem agrees_listVersions (h : Filed t) (scope : Scope) :
    Agrees (History.list scope) t.withoutOrphans t := by
  have hpre : Key.versions <+: History.prefixOf scope := by
    cases scope with
    | all => exact List.prefix_rfl
    | root r => exact List.prefix_append _ _
    | path r p => exact Key.versions_prefix_versionsAt
  obtain ⟨vs, hvs⟩ := h.exists_scan_versions hpre
  have hlisted : ∀ e ∈ vs,
      (History.isListed t.withoutOrphans scope e && !Table.isOrphan t e.1)
        = History.isListed t scope e := by
    intro e he
    obtain ⟨hp, hfetch⟩ := (Table.mem_scan hvs).1 he
    rw [h.isListed_withoutOrphans ⟨hpre.trans hp, hfetch⟩]
    cases hlist : History.isListed t scope e with
    | false => rfl
    | true => simp [isOrphan_of_isListed hlist]
  apply agrees_read
  rw [Table.scan_withoutOrphans hvs, hvs]
  show Except.ok ((((vs.filter fun e => !Table.isOrphan t e.1).filter
      (History.isListed t.withoutOrphans scope)).map (·.2)).mergeSort
        fun v w => v.timestamp ≤ w.timestamp)
    = .ok (((vs.filter (History.isListed t scope)).map (·.2)).mergeSort
        fun v w => v.timestamp ≤ w.timestamp)
  rw [List.filter_filter, List.filter_congr hlisted]

/-! ### Checking files against their history -/

/-- All versions of a path that has a file record stay. -/
theorem agrees_latestVersion (h : Filed t) (hr : Short r) (hp : Short p)
    (hroot : t.has (.root r) = true) (hfile : t.has (.file r p) = true) :
    Agrees (History.latest r p) t.withoutOrphans t := by
  have hunder : t.withoutOrphans.under (Key.versionsAt r p) = t.under (Key.versionsAt r p) := by
    rw [Table.under_withoutOrphans, List.filter_eq_self]
    intro e he
    obtain ⟨hpre, hget⟩ := Table.mem_under.1 he
    obtain ⟨v, o, -, -, hparse⟩ :=
      h.version e.1 e.2 (Key.versions_prefix_versionsAt.trans hpre) hget
    obtain ⟨hshort, hkey⟩ := Key.parseVersion?_eq_some_iff.1 hparse
    rw [hkey] at hpre
    obtain ⟨ts, heq⟩ := (Key.versionsAt_prefix_iff hr hp (k := .version v.root o v.timestamp)
      hshort).1 hpre
    rw [hkey, heq, Table.isOrphan_version hroot hfile]
    rfl
  apply agrees_read
  unfold Table.fetchLast Table.lastUnder?
  rw [hunder]

/-- The files that are listed under a root are files of that root. -/
theorem of_mem_listUnder (h : Filed t) {fs : List File}
    (hfs : (Files.listUnder (Key.filesOf r) t).answer = .ok fs) {f : File} (hf : f ∈ fs) :
    (Short r ∧ Short f.path) ∧ t.has (.root r) = true ∧ t.has (.file r f.path) = true := by
  obtain ⟨es, hes, hkeys⟩ := h.exists_scan_files (List.prefix_append Key.files (Key.segment r))
  have hlist : (Files.listUnder (Key.filesOf r) t).answer
      = .ok ((es.map (·.2)).filter fun f => t.has (.root f.root)) := by
    simp only [Files.listUnder, Op.read_apply]
    rw [show t.scan Codec.file (Key.filesOf r) = .ok es from hes]
    rfl
  rw [hlist, Except.ok.injEq] at hfs
  subst hfs
  obtain ⟨hmem, hroot⟩ := List.mem_filter.1 hf
  obtain ⟨⟨k, g⟩, he, rfl⟩ := List.mem_map.1 hmem
  have hparse : Key.parseFile? k = some (g.root, g.path) := hkeys _ he
  obtain ⟨⟨hr, hp⟩, rfl⟩ := Key.parseFile?_eq_some_iff.1 hparse
  obtain ⟨hpre, hfetch⟩ := (Table.mem_scan hes).1 he
  obtain ⟨b, hb, -⟩ := Table.fetch_eq_some_iff.1 hfetch
  obtain rfl : r = g.root := (Key.filesOf_prefix_file_iff hr hp).1 hpre
  exact ⟨⟨hr, hp⟩, hroot, Table.has_iff.2 ⟨b, hb⟩⟩

theorem agrees_verifyRoot (h : Filed t) (r : String) :
    Agrees (Engine.verifyRoot r) t.withoutOrphans t := by
  apply Engine.agrees_verifyRoot_of (Roots.agrees_get t r) (h.agrees_listFiles (.root r))
  intro fs hfs f hf
  obtain ⟨⟨hr, hp⟩, hroot, hfile⟩ := h.of_mem_listUnder hfs hf
  exact h.agrees_latestVersion hr hp hroot hfile

end Filed

/-! ### Removals in progress -/

namespace Filed

variable {s : Records}

theorem of_get? (h : Filed t)
    (hs : ∀ k b, Key.files <+: k ∨ Key.versions <+: k → s.get? k = some b → t.get? k = some b) :
    Filed s where
  file k b hk hb := h.file k b hk (hs k b (Or.inl hk) hb)
  version k b hk hb := h.version k b hk (hs k b (Or.inr hk) hb)

theorem of_sub (h : Filed t) (hs : s.Sub t) : Filed s := h.of_get? fun k b _ hb => hs k b hb

theorem insert_marker (h : Filed t) (r : String) (p : Option String) (b : Bytes) :
    Filed (t.insert (Key.marker r p).bytes b) := by
  apply h.of_get?
  intro k c hk hc
  rw [Table.get?_insert, if_neg] at hc
  · exact hc
  · rintro rfl
    simp [Key.files_prefix_iff, Key.versions_prefix_iff] at hk

theorem registryWrite {r : String} (hs : RegistryWrite r t s) (h : Filed t) : Filed s := by
  apply h.of_get?
  intro k b hk hb
  rw [hs.get?_of_outside (hk.elim Key.outside_of_files Key.outside_of_versions)] at hb
  exact hb

theorem hereditary : Hereditary Filed where
  sub hs h := h.of_sub hs
  marker r p b h := h.insert_marker r p b

theorem inPlace (h : Filed t) : FilesInPlace t := by
  intro k f hk hf
  obtain ⟨b, hb, hread⟩ := Table.fetch_eq_some_iff.1 hf
  obtain ⟨g, hg, hkey⟩ := h.file k b hk hb
  obtain rfl : f = g := Option.some.inj (hread.symm.trans hg)
  exact (Key.parseFile?_eq_some_iff.1 hkey).2

theorem keeps_removeRoot (r : String) (batch : Nat) : Op.Keeps Filed (Roots.remove r batch) :=
  hereditary.keeps_removeRoot fun _ _ hs h => registryWrite hs h

end Filed

/-- Whatever a run leaves is filed. -/
theorem Journal.StoredIn.filed {j : Journal} (h : j.StoredIn t) : Filed t where
  file k b hk hb := by
    obtain ⟨r, p, hr, hp, rfl, -⟩ := h.of_file_key (Table.mem_keysUnder.2 ⟨hk, b, hb⟩)
    obtain ⟨m, hm, hget⟩ := h.file r p hr hp
    rw [hb, eq_comm, Option.map_eq_some_iff] at hget
    obtain ⟨v, hlast, rfl⟩ := hget
    have hv : v ∈ j r p := List.mem_of_getLast? hlast
    have hfits := Journal.StoredIn.fits_fileAt ((h.history r p hr hp).fits v hv) hp hm
    have hroot : v.root = r := (h.history r p hr hp).root v hv
    refine ⟨v.fileAt p m, (Codec.restores_file hfits).read?, ?_⟩
    rw [Key.parseFile?_bytes hr hp]
    exact congrArg (fun q => some (q, p)) hroot.symm
  version k b hk hb := by
    obtain ⟨r, p, ts, hr, hp, rfl, -⟩ := h.of_version_key (Table.mem_keysUnder.2 ⟨hk, b, hb⟩)
    obtain ⟨v, hv, rfl, rfl⟩ := (h.get?_version hr hp).1 hb
    have hhistory := h.history r p hr hp
    refine ⟨v, p, (Codec.restores_version (hhistory.fits v hv)).read?, hhistory.touches v hv, ?_⟩
    rw [Key.parseVersion?_bytes hr hp, hhistory.root v hv]

/-! ### All readers -/

/-- Every reader answers alike on both tables, with the same value or the same error. -/
structure ReadAlike (s t : Records) : Prop where
  latest : ∀ r p, Files.latest r p s = Files.latest r p t
  version : ∀ r p ts, History.get r p ts s = History.get r p ts t
  download : ∀ (e : Engine) contents r p ts,
    e.download contents r p ts s = e.download contents r p ts t
  verifyRoot : ∀ r, Engine.verifyRoot r s = Engine.verifyRoot r t
  listFiles : ∀ scope, Files.list scope s = Files.list scope t
  listVersions : ∀ scope, History.list scope s = History.list scope t

/-- **A removal in progress is not seen.**  No reader tells a table from the one that has its
    orphans purged. -/
theorem readAlike_withoutOrphans (h : Filed t) : ReadAlike t.withoutOrphans t where
  latest r p := (Files.agrees_latest t r p).1
  version r p ts := (History.agrees_get t r p ts).1
  download e contents r p ts := (Engine.agrees_download t e contents r p ts).1
  verifyRoot r := (h.agrees_verifyRoot r).1
  listFiles scope := (h.agrees_listFiles scope).1
  listVersions scope := (h.agrees_listVersions scope).1

/-- A root is removed after a run, and the removal stops before anything is purged. -/
theorem removal_unseen_after_reuse :
    let t := ((Session.fresh Session.plain).run Session.renameAndReuse).records
    ∃ s ∈ (Roots.remove "r" 1 t).commits, s.has (.root "r") = false ∧
      s.has (.file "r" "a") = true ∧ s.withoutOrphans.has (.file "r" "a") = false ∧ Filed s ∧
      ReadAlike s.withoutOrphans s := by
  intro t
  have hfiled : Filed t := (stored_run Session.plain Session.renameAndReuse_fits).filed
  have hsome : (Roots.remove "r" 1 t).commits.any (fun s => !s.has (.root "r") &&
      s.has (.file "r" "a") && !s.withoutOrphans.has (.file "r" "a")) = true := by decide +kernel
  obtain ⟨s, hs, hlook⟩ := List.any_eq_true.1 hsome
  have hfiled' : Filed s := Filed.keeps_removeRoot "r" 1 t hfiled s hs
  simp only [Bool.and_eq_true, Bool.not_eq_true'] at hlook
  exact ⟨s, hs, hlook.1.1, hlook.1.2, hlook.2, hfiled', readAlike_withoutOrphans hfiled'⟩

end SyncLedger
