/-
  SyncLedger/Proofs/Newest.lean
  =============================
  **The newest version of a path, looked up and listed.**  The versions of a path stand one after
  another in the order of their timestamps (`Shelf`), so the last key under the prefix of the path
  is that of the version with the greatest timestamp (`Shelf.getLast?_eq_some_iff`), and a listing
  gives the versions as they stand.  The two ways to the newest version part where a removal has
  begun: a listing looks for the root and the file first, and the lookup does not.

  The lookup and the last element of the listing are compared in every table whose versions are
  filed (`latest_listed_unless_removed`).  They differ just where a version stands without its root
  or without its file; in a table that can be met there is then a marker over the path.
-/
import SyncLedger.Proofs.Consistency
import SyncLedger.Proofs.ReconciliationTable
import SyncLedger.Proofs.Strays

namespace SyncLedger

variable {t : Records} {r p : String} {ts : UInt64} {v : Version} {vs : List Version}

namespace Table

variable {α : Type} {c : Codec α} {pre : Bytes} {es : List (Bytes × α)}

/-- The last value under a prefix is the last one of a scan. -/
theorem fetchLast_of_scan (h : t.scan c pre = .ok es) :
    t.fetchLast c pre = .ok (es.getLast?.map (·.2)) := by
  have hall := List.forall₂_reverse_iff.2 (decodeAll_eq_ok_iff.1 h)
  unfold fetchLast lastUnder?
  rw [← List.head?_reverse, ← List.head?_reverse]
  generalize (t.under pre).reverse = found, es.reverse = read at hall ⊢
  cases hall with
  | nil => rfl
  | cons hlast _ => simp [hlast.2]

end Table

/-! ### The newest version -/

theorem Newest.has (h : Newest t r p v) : t.has (.version r p v.timestamp) = true := by
  obtain ⟨b, hb, -⟩ := Table.fetch_eq_some_iff.1 h.1
  exact Table.has_iff.2 ⟨b, hb⟩

theorem Newest.unique {w : Version} (hv : Newest t r p v) (hw : Newest t r p w) : v = w := by
  have hsame : v.timestamp = w.timestamp := UInt64.le_antisymm (hw.2 _ hv.has) (hv.2 _ hw.has)
  have hfetch := hv.1
  rw [hsame, hw.1] at hfetch
  exact (Option.some.inj (Except.ok.inj hfetch)).symm

/-! ### The versions of a path as they stand -/

/-- The versions under the prefix of a path, each under its own key, in the order of their
    timestamps. -/
structure Shelf (t : Records) (r p : String) (vs : List Version) : Prop where
  scan : t.scan Codec.version (Key.versionsAt r p)
    = .ok (vs.map fun v => ((Key.version r p v.timestamp).bytes, v))
  increasing : vs.Pairwise (·.timestamp < ·.timestamp)
  short : ∀ v ∈ vs, Short r ∧ Short p

/-- Where versions are filed, every path has its shelf. -/
theorem Filed.exists_shelf (h : Filed t) (r p : String) : ∃ vs, Shelf t r p vs := by
  have hstarts : Key.versions <+: Key.versionsAt r p := Key.versions_prefix_versionsAt
  obtain ⟨found, hscan⟩ := h.exists_scan_versions hstarts
  have hkeys : ∀ e ∈ found,
      (Short r ∧ Short p) ∧ e = ((Key.version r p e.2.timestamp).bytes, e.2) := by
    rintro ⟨k, v⟩ he
    obtain ⟨hunder, hfetch⟩ := (Table.mem_scan hscan).1 he
    obtain ⟨b, hb, hread⟩ := Table.fetch_eq_some_iff.1 hfetch
    obtain ⟨w, q, hread', -, hparse⟩ := h.version k b (hstarts.trans hunder) hb
    obtain rfl : w = v := Option.some.inj (hread'.symm.trans hread)
    obtain ⟨⟨hr, hp⟩, rfl⟩ := Key.parseVersion?_eq_some_iff.1 hparse
    obtain ⟨rfl, rfl⟩ := (Key.versionsAt_prefix_version_iff hr hp).1 hunder
    exact ⟨⟨hr, hp⟩, rfl⟩
  have hfound : (found.map (·.2)).map (fun v => ((Key.version r p v.timestamp).bytes, v))
      = found := by
    rw [List.map_map]
    exact (List.map_congr_left fun e he => (hkeys e he).2.symm).trans (List.map_id found)
  refine ⟨found.map (·.2), hfound.symm ▸ hscan, ?_, ?_⟩
  · -- the order of the keys is that of the timestamps
    have hordered := Table.pairwise_under t (Key.versionsAt r p)
    have hsorted : (found.map (·.1)).Pairwise (· < ·) := by
      rw [Table.map_fst_scan hscan]
      exact List.pairwise_map.2 hordered
    rw [← hfound, List.map_map, List.pairwise_map] at hsorted
    exact hsorted.imp (Key.version_lt_iff r p).1
  · rintro v hv
    obtain ⟨e, he, -⟩ := List.mem_map.1 hv
    exact (hkeys e he).1

namespace Shelf

variable (h : Shelf t r p vs)
include h

theorem answer_latest : (History.latest r p t).answer = .ok vs.getLast? := by
  show t.fetchLast Codec.version (Key.versionsAt r p) = _
  rw [Table.fetchLast_of_scan h.scan, List.getLast?_map, Option.map_map]
  exact congrArg Except.ok (congrFun Option.map_id vs.getLast?)

/-- A listing gives the versions as they stand, if the root and the file are there. -/
theorem answer_list (hroot : t.has (.root r) = true) (hfile : t.has (.file r p) = true) :
    (History.list (.path r p) t).answer = .ok vs := by
  cases vs with
  | nil =>
    have hscan : t.scan Codec.version (Key.versionsAt r p) = .ok [] := h.scan
    simp only [History.list, Op.read_apply, History.prefixOf, hscan]
    exact congrArg Except.ok List.mergeSort_nil
  | cons v vs =>
    obtain ⟨hr, hp⟩ := h.short v List.mem_cons_self
    exact History.answer_list_of_scan hr hp h.scan hroot hfile h.increasing

/-- A listing gives none of them if the root or the file is gone. -/
theorem answer_list_of_gone (hgone : t.has (.root r) = false ∨ t.has (.file r p) = false) :
    (History.list (.path r p) t).answer = .ok [] := by
  refine History.answer_list_of_gone h.scan ?_ hgone
  intro e he
  obtain ⟨v, hv, rfl⟩ := List.mem_map.1 he
  obtain ⟨hr, hp⟩ := h.short v hv
  exact ⟨v.timestamp, Key.parseVersion?_bytes hr hp v.timestamp⟩

theorem mem_iff : v ∈ vs ↔
    t.fetch Codec.version (Key.version r p v.timestamp).bytes = .ok (some v) := by
  have hstarts : Key.versionsAt r p <+: (Key.version r p v.timestamp).bytes :=
    List.prefix_append _ _
  have hmem := Table.mem_scan h.scan (k := (Key.version r p v.timestamp).bytes) (v := v)
  rw [List.mem_map, and_iff_right hstarts] at hmem
  rw [← hmem]
  constructor
  · intro hv
    exact ⟨v, hv, rfl⟩
  · rintro ⟨w, hw, heq⟩
    obtain rfl : w = v := (Prod.ext_iff.1 heq).2
    exact hw

theorem has_iff : t.has (.version r p ts) = true ↔ ∃ v ∈ vs, v.timestamp = ts := by
  have hkeys := Table.map_fst_scan h.scan
  have hstarts : Key.versionsAt r p <+: (Key.version r p ts).bytes := List.prefix_append _ _
  have hunder : t.has (.version r p ts) = true ↔
      (Key.version r p ts).bytes ∈ t.keysUnder (Key.versionsAt r p) := by
    rw [Table.has_iff, Table.mem_keysUnder, and_iff_right hstarts]
  rw [hunder, ← hkeys, List.map_map, List.mem_map]
  refine exists_congr fun v => and_congr_right fun hv => ?_
  obtain ⟨hr, hp⟩ := h.short v hv
  simp [Key.version_bytes_inj_of_short hr hp, eq_comm]

/-- The last version on the shelf is the newest of the path. -/
theorem getLast?_eq_some_iff : vs.getLast? = some v ↔ Newest t r p v := by
  unfold Newest
  rw [← h.mem_iff]
  constructor
  · intro hlast
    obtain ⟨us, rfl⟩ := List.getLast?_eq_some_iff.1 hlast
    refine ⟨List.mem_append_right us (List.mem_singleton_self v), ?_⟩
    intro ts hts
    obtain ⟨w, hw, rfl⟩ := h.has_iff.1 hts
    rcases List.mem_append.1 hw with hw | hw
    · exact UInt64.le_of_lt ((List.pairwise_append.1 h.increasing).2.2 w hw v (by simp))
    · rw [List.mem_singleton.1 hw]
      exact UInt64.le_refl _
  · rintro ⟨hv, hgreatest⟩
    obtain ⟨us, w, rfl⟩ : ∃ us w, vs = us ++ [w] :=
      (List.eq_nil_or_concat' vs).resolve_left (List.ne_nil_of_mem hv)
    have hw : w.timestamp ≤ v.timestamp := hgreatest _ (h.has_iff.2 ⟨w, by simp, rfl⟩)
    rcases List.mem_append.1 hv with hv | hv
    · have hlt := (List.pairwise_append.1 h.increasing).2.2 v hv w (by simp)
      exact absurd (UInt64.lt_of_lt_of_le hlt hw) (UInt64.lt_irrefl _)
    · rw [List.mem_singleton.1 hv, List.getLast?_concat]

end Shelf

/-! ### Removals in progress -/

namespace Met

theorem filed (h : Met t) : Filed t := by
  obtain ⟨j, hj⟩ := h.exists_journal
  exact hj.filed

/-- In a table that can be met the root and the file of a version are there, unless a marker says
    that one of them is being removed. -/
theorem live_of_unmarked (h : Met t) (hversion : t.has (.version r p ts) = true)
    (hroot : t.has (.marker r none) = false) (hpath : t.has (.marker r (some p)) = false) :
    t.has (.root r) = true ∧ t.has (.file r p) = true := by
  obtain ⟨j, hfiled, u, hstored, hbeside⟩ := h.exists_journal
  obtain ⟨b, hb⟩ := Table.has_iff.1 hversion
  obtain ⟨vs, hshelf⟩ := hfiled.exists_shelf r p
  obtain ⟨v, hv, -⟩ := hshelf.has_iff.1 hversion
  obtain ⟨hr, hp⟩ := hshelf.short v hv
  -- no removal with a marker purges the version
  have hkept : ∀ m : Removal, t.contains m.key = true →
      ¬ m.Covers (Key.version r p ts).bytes := by
    intro m hm hcovers
    rcases (Removal.covers_version_iff hr hp).1 hcovers with rfl | rfl
    · exact absurd (hm : t.has (.marker r none) = true) (Bool.eq_false_iff.1 hroot)
    · exact absurd (hm : t.has (.marker r (some p)) = true) (Bool.eq_false_iff.1 hpath)
  rw [hbeside.rest _ (by simp [Key.markers_prefix_iff]) hkept] at hb
  obtain ⟨w, hw, -⟩ := (hstored.get?_version hr hp).1 hb
  have hne : j r p ≠ [] := List.ne_nil_of_mem hw
  obtain ⟨hthere, hspared⟩ := Journal.ShownIn.spared_of_ne_nil hstored hbeside hr hp hne
  refine ⟨hthere, ?_⟩
  rw [Table.has_congr (hbeside.file hspared), hstored.has_file hr hp]
  exact hne

end Met

/-- **The newest version is the last one listed, unless it is about to be purged.**  In every table
    whose versions are filed both readers answer, for every path; the lookup gives the version with
    the greatest timestamp that is stored.  Where the root and the file are there, that is the last
    version listed, and none just if none is listed.  Where one of them is gone nothing is listed,
    and the two differ just if a version is still stored; in a table that can be met a marker then
    says that the root or the path is being removed. -/
theorem latest_listed_unless_removed (h : Filed t) (r p : String) :
    ∃ vs newest?, (History.list (.path r p) t).answer = .ok vs ∧
      (History.latest r p t).answer = .ok newest? ∧
      (∀ v, newest? = some v ↔ Newest t r p v) ∧
      (t.has (.root r) = true → t.has (.file r p) = true →
        newest? = vs.getLast? ∧ (newest? = none ↔ vs = [])) ∧
      (t.has (.root r) = false ∨ t.has (.file r p) = false → vs = []) ∧
      (newest? ≠ vs.getLast? ↔
        (t.has (.root r) = false ∨ t.has (.file r p) = false) ∧ ∃ v, Newest t r p v) ∧
      (Met t → newest? ≠ vs.getLast? →
        t.has (.marker r none) = true ∨ t.has (.marker r (some p)) = true) := by
  obtain ⟨stored, hshelf⟩ := h.exists_shelf r p
  have hnewest : ∀ v, stored.getLast? = some v ↔ Newest t r p v :=
    fun v => hshelf.getLast?_eq_some_iff
  by_cases hlive : t.has (.root r) = true ∧ t.has (.file r p) = true
  · obtain ⟨hroot, hfile⟩ := hlive
    refine ⟨stored, _, hshelf.answer_list hroot hfile, hshelf.answer_latest, hnewest,
      fun _ _ => ⟨rfl, List.getLast?_eq_none_iff⟩, ?_, ?_, fun _ hne => absurd rfl hne⟩
    · simp [hroot, hfile]
    · simp [hroot, hfile]
  · have hgone : t.has (.root r) = false ∨ t.has (.file r p) = false := by
      simpa [Decidable.imp_iff_not_or] using hlive
    refine ⟨[], _, hshelf.answer_list_of_gone hgone, hshelf.answer_latest, hnewest,
      fun hroot hfile => absurd ⟨hroot, hfile⟩ hlive, fun _ => rfl, ?_, ?_⟩
    · rw [and_iff_right hgone, List.getLast?_nil, Option.ne_none_iff_exists']
      exact exists_congr hnewest
    · intro hmet hdiffer
      obtain ⟨v, hv⟩ := Option.ne_none_iff_exists'.1 hdiffer
      have hthere : t.has (.version r p v.timestamp) = true :=
        hshelf.has_iff.2 ⟨v, List.mem_of_getLast? hv, rfl⟩
      by_contra hopen
      rw [not_or, Bool.not_eq_true, Bool.not_eq_true] at hopen
      exact hlive (hmet.live_of_unmarked hthere hopen.1 hopen.2)

/-- The former path of a file that was renamed has two versions, and the lookup gives the second. -/
theorem latest_after_reuse :
    let t := ((Session.fresh Session.plain).run Session.renameAndReuse).records
    Filed t ∧ t.has (.root "r") = true ∧ t.has (.file "r" "a") = true ∧
      ∃ vs v, (History.list (.path "r" "a") t).answer = .ok vs ∧
        (History.latest "r" "a" t).answer = .ok (some v) ∧ vs.getLast? = some v := by
  intro t
  have hfiled : Filed t := (stored_run Session.plain Session.renameAndReuse_fits).filed
  have hroot : t.has (.root "r") = true := by decide +kernel
  have hfile : t.has (.file "r" "a") = true := by decide +kernel
  have hsome : ((History.latest "r" "a" t).answer.toOption.join).isSome = true := by decide +kernel
  obtain ⟨vs, newest?, hlist, hlatest, -, hagree, -⟩ := latest_listed_unless_removed hfiled "r" "a"
  rw [hlatest] at hsome
  obtain ⟨v, hv⟩ := Option.isSome_iff_exists.1 hsome
  obtain rfl : newest? = some v := hv
  exact ⟨hfiled, hroot, hfile, vs, v, hlist, hlatest, (hagree hroot hfile).1.symm⟩

/-- While a root is being removed nothing is listed for its paths, and the lookup still finds a
    version. -/
theorem latest_of_removed_root :
    ∃ t, Met t ∧ t.has (.root "r") = false ∧ t.has (.marker "r" none) = true ∧
      (History.list (.path "r" "a") t).answer = .ok [] ∧
      ∃ v, (History.latest "r" "a" t).answer = .ok (some v) := by
  let t := ((Session.fresh Session.plain).run Session.shelf).records
  have hsome : ((Removal.root "r").op Session.plain t).commits.any (fun s =>
      !s.has (.root "r") && s.has (.marker "r" none) &&
        ((History.latest "r" "a" s).answer.toOption.join).isSome) = true := by
    decide +kernel
  obtain ⟨s, hs, hlook⟩ := List.any_eq_true.1 hsome
  simp only [Bool.and_eq_true, Bool.not_eq_true'] at hlook
  obtain ⟨⟨hroot, hmarked⟩, hfound⟩ := hlook
  have hmet : Met s :=
    .between Session.shelf_feasible Session.shelf_fits Session.plain (m := .root "r")
      (show Short "r" by decide) hs .refl
  obtain ⟨vs, hshelf⟩ := hmet.filed.exists_shelf "r" "a"
  have hlatest := hshelf.answer_latest
  rw [hlatest] at hfound
  obtain ⟨v, hv⟩ := Option.isSome_iff_exists.1 hfound
  refine ⟨s, hmet, hroot, hmarked, hshelf.answer_list_of_gone (Or.inl hroot), v, ?_⟩
  rw [hlatest]
  exact congrArg Except.ok hv

end SyncLedger
