/-
  SyncLedger/Proofs/Reached.lean
  ==============================
  **Observations while something is being removed.**  A table can be met that no finished run
  leaves: while a removal is made, or after it was cut short, its marker stands and what it purges
  is partly there (`Reached`).  Beside that the table is one that stores a journal (`Beside`), and
  this is enough for observations.  One that is accepted has its root there and no marker at
  either of its paths, so every marker spares what it reads and writes, and the two tables stay
  beside each other while the journal grows by the version (`ShownIn.reconcile`).

  What is left to be purged is not listed, so the listing of every path is still what the journal
  says (`ShownIn.answer_list`).
-/
import SyncLedger.Proofs.Histories
import SyncLedger.Proofs.Markers
import SyncLedger.Proofs.Visibility

namespace SyncLedger

variable {j : Journal} {t s s' : Records} {r p : String} {k : Bytes} {o : Observation}
  {source : Option File} {v : Version}

/-! ### Filed records -/

namespace Filed

theorem insert_version (h : Filed t) (hv : v.Fits) (hroot : v.root = r) (hp : Short p)
    (htouches : v.Touches p) :
    Filed (t.insert (Key.version r p v.timestamp).bytes (Codec.version.encode v)) where
  file k b hk hb := by
    rw [Table.get?_insert, if_neg] at hb
    · exact h.file k b hk hb
    · rintro rfl
      simp [Key.files_prefix_iff] at hk
  version k b hk hb := by
    subst hroot
    rw [Table.get?_insert] at hb
    split at hb
    · rename_i heq
      subst heq
      obtain rfl := Option.some.inj hb
      exact ⟨v, p, (Codec.restores_version hv).read?, htouches,
        Key.parseVersion?_bytes hv.root hp _⟩
    · exact h.version k b hk hb

theorem insert_file (h : Filed t) {f : File} (hf : f.Fits) (hroot : f.root = r)
    (hpath : f.path = p) :
    Filed (t.insert (Key.file r p).bytes (Codec.file.encode f)) where
  file k b hk hb := by
    subst hroot hpath
    rw [Table.get?_insert] at hb
    split at hb
    · rename_i heq
      subst heq
      obtain rfl := Option.some.inj hb
      exact ⟨f, (Codec.restores_file hf).read?, Key.parseFile?_bytes hf.root hf.path⟩
    · exact h.file k b hk hb
  version k b hk hb := by
    rw [Table.get?_insert, if_neg] at hb
    · exact h.version k b hk hb
    · rintro rfl
      simp [Key.versions_prefix_iff] at hk

/-- What stands under the prefix of a path stands under the key of a version of it. -/
theorem version_key (h : Filed t) (hr : Short r) (hp : Short p) (hk : Key.versionsAt r p <+: k)
    {b : Bytes} (hb : t.get? k = some b) : ∃ ts, k = (Key.version r p ts).bytes := by
  obtain ⟨v, q, -, -, hparse⟩ := h.version k b (Key.versions_prefix_versionsAt.trans hk) hb
  obtain ⟨hshort, rfl⟩ := Key.parseVersion?_eq_some_iff.1 hparse
  have hfits : (Key.version v.root q v.timestamp).Fits := hshort
  obtain ⟨ts, hkey⟩ := (Key.versionsAt_prefix_iff hr hp hfits).1 hk
  exact ⟨ts, congrArg Key.bytes hkey⟩

end Filed

/-! ### Removals beside a table -/

theorem Table.contains_marker_insert (hk : ¬ Key.markers <+: k) (m : Removal) (b : Bytes) :
    (s.insert k b).contains m.key = s.contains m.key := by
  have hne : m.key ≠ k := by
    rintro rfl
    exact hk m.markers_prefix_key
  rw [Table.contains, Table.get?_insert, if_neg hne, Table.contains]

/-- Every removal that has a marker leaves a path alone. -/
def Spared (s : Records) (r p : String) : Prop :=
  ∀ m : Removal, s.contains m.key = true → m.Spares r p

theorem Spared.insert (h : Spared s r p) (hk : ¬ Key.markers <+: k) (b : Bytes) :
    Spared (s.insert k b) r p := by
  intro m hm
  rw [Table.contains_marker_insert hk] at hm
  exact h m hm

/-- The second table is the first with removals in progress: beside the markers, and what they
    reserve, it is the same.  The first has neither. -/
structure Beside (t s : Records) : Prop where
  gone : ∀ m : Removal, s.contains m.key = true → s.has m.owner = false
  purged : ∀ m : Removal, s.contains m.key = true → ∀ k, m.Covers k → t.get? k = none
  rest : ∀ k, ¬ Key.markers <+: k →
    (∀ m : Removal, s.contains m.key = true → ¬ m.Covers k) → s.get? k = t.get? k

namespace Beside

theorem refl (h : t.under Key.markers = []) : Beside t t := by
  have hnone (m : Removal) : ¬ t.contains m.key = true := by
    rw [Bool.not_eq_true, Table.contains_eq_false_iff]
    exact Table.under_eq_nil_iff.1 h _ m.markers_prefix_key
  exact ⟨fun m hm => absurd hm (hnone m), fun m hm => absurd hm (hnone m), fun _ _ _ => rfl⟩

/-- Every marker spares the paths of a registered root that have none. -/
theorem spared (h : Beside t s) (hr : Short r) (hp : Short p) (hroot : s.has (.root r) = true)
    (hopen : s.has (.marker r (some p)) = false) : Spared s r p := by
  intro m hm
  have hclosed : m.Closed s s := ⟨hm, h.gone m hm, fun _ _ _ hb => hb⟩
  exact hclosed.spares hr hp hroot hopen

theorem root (h : Beside t s) (r : String) :
    s.get? (Key.root r).bytes = t.get? (Key.root r).bytes := by
  apply h.rest
  · simp [Key.markers_prefix_iff]
  · intro m _
    apply Removal.not_covers
    · simp [Key.files_prefix_iff]
    · simp [Key.versions_prefix_iff]

theorem file (h : Beside t s) (hspared : Spared s r p) :
    s.get? (Key.file r p).bytes = t.get? (Key.file r p).bytes := by
  apply h.rest
  · simp [Key.markers_prefix_iff]
  · intro m hm
    exact (hspared m hm).2.1

theorem version (h : Beside t s) (hspared : Spared s r p) (ts : UInt64) :
    s.get? (Key.version r p ts).bytes = t.get? (Key.version r p ts).bytes := by
  apply h.rest
  · simp [Key.markers_prefix_iff]
  · intro m hm
    exact (hspared m hm).1 ts

theorem insert (h : Beside t s) (hmark : ¬ Key.markers <+: k)
    (hfree : ∀ m : Removal, s.contains m.key = true → ¬ m.Covers k ∧ k ≠ m.owner.bytes)
    (b : Bytes) : Beside (t.insert k b) (s.insert k b) := by
  constructor
  · intro m hm
    rw [Table.contains_marker_insert hmark] at hm
    rw [Table.has_congr (t := s) (by rw [Table.get?_insert, if_neg (hfree m hm).2.symm])]
    exact h.gone m hm
  · intro m hm l hl
    rw [Table.contains_marker_insert hmark] at hm
    rw [Table.get?_insert, if_neg]
    · exact h.purged m hm l hl
    · rintro rfl
      exact (hfree m hm).1 hl
  · intro l hl hspared
    simp only [Table.contains_marker_insert hmark] at hspared
    rw [Table.get?_insert, Table.get?_insert, h.rest l hl hspared]

theorem insert_version (h : Beside t s) (hspared : Spared s r p) (ts : UInt64) (b : Bytes) :
    Beside (t.insert (Key.version r p ts).bytes b) (s.insert (Key.version r p ts).bytes b) := by
  apply h.insert
  · simp [Key.markers_prefix_iff]
  · intro m hm
    exact ⟨(hspared m hm).1 ts, Removal.owner_ne (by simp) (by simp)⟩

theorem insert_file (h : Beside t s) (hspared : Spared s r p) (b : Bytes) :
    Beside (t.insert (Key.file r p).bytes b) (s.insert (Key.file r p).bytes b) := by
  apply h.insert
  · simp [Key.markers_prefix_iff]
  · intro m hm
    exact (hspared m hm).2

theorem written (h : Beside t s) (hpath : Spared s o.root o.path)
    (hsource : ∀ f ∈ source, Spared s o.root f.path) :
    Beside (Files.written o source v t) (Files.written o source v s) := by
  have hversion (q : String) : ¬ Key.markers <+: (Key.version o.root q v.timestamp).bytes := by
    simp [Key.markers_prefix_iff]
  have hfile (q : String) : ¬ Key.markers <+: (Key.file o.root q).bytes := by
    simp [Key.markers_prefix_iff]
  have hnew := h.insert_version hpath v.timestamp (Codec.version.encode v)
  have hpath' := hpath.insert (hversion o.path) (Codec.version.encode v)
  cases source with
  | none => exact hnew.insert_file hpath' _
  | some f =>
    have hf := (hsource f rfl).insert (hversion o.path) (Codec.version.encode v)
    have hsecond := hnew.insert_version hf v.timestamp (Codec.version.encode v)
    have hleft := hsecond.insert_file (hf.insert (hversion f.path) _)
      (Codec.file.encode { f with hash := o.hash, timestamp := v.timestamp, present := false })
    exact hleft.insert_file ((hpath'.insert (hversion f.path) _).insert (hfile f.path) _) _

end Beside

/-! ### Observations -/

namespace Files

theorem sourceOf_of_none (h : o.source? = none) : sourceOf o t = .ok (none, t) := by
  unfold sourceOf
  rw [h]
  rfl

theorem sourceOf_of_some {f : File} (h : o.source? = some p)
    (hopen : t.has (.marker o.root (some p)) = false)
    (hfetch : t.fetch Codec.file (Key.file o.root p).bytes = .ok (some f))
    (hpresent : f.present = true) : sourceOf o t = .ok (some f, t) := by
  unfold sourceOf
  rw [h]
  dsimp only
  rw [Txn.bind_of_ok ((ensureOpen_eq_ok_iff (u := ())).2 ⟨hopen, rfl⟩),
    Txn.bind_of_ok (Txn.fetch_eq_ok_iff.2 ⟨hfetch, rfl⟩)]
  simp only [hpresent, if_true]
  rfl

end Files

theorem Filed.written (h : Filed t) {current : Option File} {now : Instant} {ts : UInt64}
    (ho : o.Fits) (hv : (o.versionAt current source now ts).Fits)
    (hsource : ∀ f ∈ source, f.Fits ∧ f.root = o.root) :
    Filed (Files.written o source (o.versionAt current source now ts) t) := by
  have hnew := h.insert_version hv rfl ho.path (Or.inl rfl)
  have htarget : (o.fileAt ts).Fits := ⟨ho.root, ho.path, ho.hash, ho.metadata⟩
  cases source with
  | none => exact hnew.insert_file htarget rfl rfl
  | some f =>
    obtain ⟨hf, hroot⟩ := hsource f rfl
    have hsecond := hnew.insert_version hv rfl hf.path (Or.inr rfl)
    have hmoved : File.Fits { f with hash := o.hash, timestamp := ts, present := false } :=
      ⟨hf.root, hf.path, ho.hash, hf.metadata⟩
    exact (hsecond.insert_file hmoved hroot rfl).insert_file htarget rfl rfl

/-- The table stores the journal, but for the removals that are in progress. -/
structure Journal.ShownIn (j : Journal) (s : Records) : Prop where
  filed : Filed s
  beside : ∃ t, j.StoredIn t ∧ Beside t s

theorem Journal.StoredIn.shown (h : j.StoredIn t) : j.ShownIn t :=
  ⟨h.filed, t, h, .refl h.unmarked_prefix⟩

namespace Journal.ShownIn

/-- An observation that is accepted adds to the journal exactly the version it answers with. -/
theorem reconcile (h : j.ShownIn s) (ho : o.Fits) {now : Instant} (hnow : now.Representable)
    {d : Decision} (hd : Files.reconcile o now s = .ok (d, s')) :
    (j.advance d.version?).ShownIn s' := by
  obtain ⟨hfiled, t, hstored, hbeside⟩ := h
  obtain ⟨hwell, hroot, hopen, current, source, hcurrent, hsource, hcases⟩ := Files.reconcile_ok hd
  -- what was read stands in the other table as well
  have hspared := hbeside.spared ho.root ho.path hroot hopen
  have hroot' : t.has (.root o.root) = true := Table.has_congr (hbeside.root o.root) ▸ hroot
  have hcurrent' : t.fetch Codec.file (Key.file o.root o.path).bytes = .ok current :=
    Table.fetch_congr (hbeside.file hspared) Codec.file ▸ hcurrent
  rcases hcases with ⟨f, rfl, hrefresh⟩ | hrecord
  · obtain ⟨rfl, rfl | rfl⟩ := Files.refresh_ok hrefresh
    · exact ⟨hfiled, t, hstored, hbeside⟩
    · obtain ⟨v, m, hlast, -, rfl⟩ := hstored.fetch_file ho.root ho.path hcurrent'
      have hhistory := hstored.history o.root o.path ho.root ho.path
      have hv := List.mem_of_getLast? hlast
      have hfits := StoredIn.fits_fileAt (hhistory.fits v hv) ho.path ho.metadata
      exact ⟨hfiled.insert_file hfits (hhistory.root v hv) rfl, _,
        hstored.refresh ho.root ho.path hlast ho.metadata, hbeside.insert_file hspared _⟩
  · obtain ⟨ts, hts, -, rfl, rfl⟩ := Files.record_eq_ok_iff.1 hrecord
    have hmoved : Files.sourceOf o t = .ok (source, t) ∧
        ∀ f ∈ source, Spared s o.root f.path ∧ f.Fits ∧ f.root = o.root := by
      rcases (Files.sourceOf_ok hsource).2 with ⟨hnone, rfl⟩ | ⟨p, f, hp, rfl, hfree, hfetch, hlive⟩
      · exact ⟨Files.sourceOf_of_none hnone, by simp⟩
      · have hshort : Short p := ho.former p (Observation.source?_eq_some hp).1
        have hspared' := hbeside.spared ho.root hshort hroot hfree
        rw [Table.fetch_congr (hbeside.file hspared') Codec.file] at hfetch
        have hkey : (Key.marker o.root (some p)).Fits := ⟨ho.root, by simpa using hshort⟩
        have hfree' := Table.has_eq_false_iff.2 (hstored.unmarked o.root (some p) hkey)
        refine ⟨Files.sourceOf_of_some hp hfree' hfetch hlive, ?_⟩
        obtain ⟨w, m, hlast, hm, rfl⟩ := hstored.fetch_file ho.root hshort hfetch
        have hhistory := hstored.history o.root p ho.root hshort
        have hw := List.mem_of_getLast? hlast
        intro f hf
        obtain rfl := Option.some.inj hf
        exact ⟨hspared', StoredIn.fits_fileAt (hhistory.fits w hw) hshort hm, hhistory.root w hw⟩
    obtain ⟨hsource', hmoved⟩ := hmoved
    have hversion := (hstored.versionAt_fits ho hnow hsource' current ts).1
    exact ⟨hfiled.written ho hversion fun f hf => (hmoved f hf).2, _,
      hstored.written ho hnow hwell hroot' hcurrent' hsource' hts,
      hbeside.written hspared fun f hf => (hmoved f hf).1⟩

/-! ### Reading -/

/-- The root of a path with a history is there, and no marker reserves the path. -/
theorem spared_of_ne_nil (hstored : j.StoredIn t) (hbeside : Beside t s) (hr : Short r)
    (hp : Short p) (hne : j r p ≠ []) : s.has (.root r) = true ∧ Spared s r p := by
  have hroot : s.has (.root r) = true :=
    Table.has_congr (hbeside.root r) ▸ hstored.rooted r p hr hp hne
  refine ⟨hroot, hbeside.spared hr hp hroot ?_⟩
  -- under a marker the versions of the path would have been purged
  cases hmarked : s.has (.marker r (some p)) with
  | false => rfl
  | true =>
    obtain ⟨v, hv⟩ := List.exists_mem_of_ne_nil _ hne
    have hthere := (hstored.get?_version hr hp).2 ⟨v, hv, rfl, rfl⟩
    have hpurged := hbeside.purged (.path r p) hmarked (Key.version r p v.timestamp).bytes
      ⟨_, List.mem_singleton_self _, List.prefix_append _ _⟩
    rw [hthere] at hpurged
    contradiction

/-- A path without a history has no file, or its root is gone. -/
theorem gone_of_eq_nil (hstored : j.StoredIn t) (hbeside : Beside t s) (hr : Short r)
    (hp : Short p) (hnil : j r p = []) : s.has (.root r) = false ∨ s.has (.file r p) = false := by
  rw [← Bool.and_eq_false_iff]
  by_contra hlive
  rw [Bool.not_eq_false, Bool.and_eq_true] at hlive
  obtain ⟨hroot, hfile⟩ := hlive
  have hopen : s.has (.marker r (some p)) = false := by
    cases hmarked : s.has (.marker r (some p)) with
    | false => rfl
    | true =>
      have hgone : s.has (.file r p) = false := hbeside.gone (.path r p) hmarked
      rw [hfile] at hgone
      contradiction
  rw [Table.has_congr (hbeside.file (hbeside.spared hr hp hroot hopen)),
    hstored.has_file hr hp] at hfile
  exact hfile hnil

theorem under_versionsAt (hfiled : Filed s) (hstored : j.StoredIn t) (hbeside : Beside t s)
    (hr : Short r) (hp : Short p) (hspared : Spared s r p) :
    s.under (Key.versionsAt r p) = t.under (Key.versionsAt r p) := by
  apply Table.under_congr
  intro k hk
  have hsame {b : Bytes} (hb : s.get? k = some b ∨ t.get? k = some b) : s.get? k = t.get? k := by
    have hversion : ∃ ts, k = (Key.version r p ts).bytes :=
      hb.elim (hfiled.version_key hr hp hk) (hstored.filed.version_key hr hp hk)
    obtain ⟨ts, rfl⟩ := hversion
    exact hbeside.version hspared ts
  cases hs : s.get? k with
  | some b => rw [← hs, hsame (Or.inl hs)]
  | none =>
    cases ht : t.get? k with
    | some b => rw [← hs, ← ht, hsame (Or.inr ht)]
    | none => rfl

/-- The listing of a path is the journal's, whatever is being removed. -/
theorem answer_list (h : j.ShownIn s) (hr : Short r) (hp : Short p) :
    (History.list (.path r p) s).answer = .ok (j r p) := by
  obtain ⟨hfiled, t, hstored, hbeside⟩ := h
  by_cases hnil : j r p = []
  · have hversions : Key.versions <+: Key.versionsAt r p := Key.versions_prefix_versionsAt
    obtain ⟨found, hfound⟩ := hfiled.exists_scan_versions hversions
    rw [hnil]
    refine History.answer_list_of_gone hfound ?_ (gone_of_eq_nil hstored hbeside hr hp hnil)
    intro e he
    obtain ⟨hunder, hfetch⟩ := (Table.mem_scan hfound).1 he
    obtain ⟨b, hb, -⟩ := Table.fetch_eq_some_iff.1 hfetch
    obtain ⟨ts, hkey⟩ := hfiled.version_key hr hp hunder hb
    exact ⟨ts, hkey ▸ Key.parseVersion?_bytes hr hp ts⟩
  · obtain ⟨hroot, hspared⟩ := spared_of_ne_nil hstored hbeside hr hp hnil
    have hfile : s.has (.file r p) = true :=
      Table.has_congr (hbeside.file hspared) ▸ (hstored.has_file hr hp).2 hnil
    have hscan := hstored.scan_versions hr hp
    rw [Table.scan, ← under_versionsAt hfiled hstored hbeside hr hp hspared] at hscan
    exact History.answer_list_of_scan hr hp hscan hroot hfile (hstored.history r p hr hp).increasing

/-- The latest state of a path is the one that its last version leaves. -/
theorem answer_latest (h : j.ShownIn s) (hr : Short r) (hp : Short p)
    (hlast : (j r p).getLast? = some v) :
    ∃ m, (Files.latest r p s).answer = .ok (v.fileAt p m) := by
  obtain ⟨-, t, hstored, hbeside⟩ := h
  have hne : j r p ≠ [] := List.ne_nil_of_mem (List.mem_of_getLast? hlast)
  obtain ⟨hroot, hspared⟩ := spared_of_ne_nil hstored hbeside hr hp hne
  obtain ⟨f, hfetch⟩ := hstored.fetch_of_ne_nil hr hp hne
  obtain ⟨w, m, hw, -, rfl⟩ := hstored.fetch_file hr hp hfetch
  obtain rfl : w = v := Option.some.inj (hw.symm.trans hlast)
  rw [← Table.fetch_congr (hbeside.file hspared) Codec.file] at hfetch
  exact ⟨m, Op.answer_eq (StoredIn.latest_there hroot hfetch)⟩

theorem isHistory (h : j.ShownIn s) (hr : Short r) (hp : Short p) : IsHistory r p (j r p) := by
  obtain ⟨-, t, hstored, -⟩ := h
  exact hstored.history r p hr hp

end Journal.ShownIn

/-! ### Tables that can be met -/

/-- A table that a session leaves; or one that a removal over it has committed, whether it goes on
    or was cut short; or one that recoveries which are themselves cut short make of that. -/
inductive Reached : Records → Prop where
  | run (e : Engine) {qs : List Call} (hqs : ∀ q ∈ qs, q.Fits) :
      Reached ((Session.fresh e).run qs).records
  | between (e : Engine) {qs : List Call} (hqs : ∀ q ∈ qs, q.Fits) (e' : Engine) {m : Removal}
      (hm : m.Fits) {t u : Records} (ht : t ∈ (m.op e' ((Session.fresh e).run qs).records).commits)
      (hu : Relation.ReflTransGen Removal.Interrupted t u) : Reached u

theorem Filed.keeps_op {m : Removal} (e : Engine) (h : Filed t) (hs : s ∈ (m.op e t).commits) :
    Filed s := by
  rw [Removal.commits_op] at hs
  cases m with
  | root r => exact keeps_removeRoot r e.batch t h s hs
  | path r p => exact hereditary.keeps_removeFile r p t h s hs

theorem Filed.of_interrupted (h : Filed s) (hs : Relation.ReflTransGen Removal.Interrupted s s') :
    Filed s' := by
  induction hs with
  | refl => exact h
  | tail _ hstep ih =>
    obtain ⟨e, hmem⟩ := hstep
    exact hereditary.keeps_pending _ ih _ hmem

theorem Removal.Purging.beside {m : Removal} (h : m.Purging t s) (ht : m.Target t) (hm : m.Fits) :
    Beside t s := by
  -- the marker of the removal is the only one
  have honly (n : Removal) (hn : s.contains n.key = true) : n = m := by
    obtain ⟨b, hb⟩ := Table.contains_iff.1 hn
    have hmem : (n.key, b) ∈ s.under Key.markers := Table.mem_under.2 ⟨n.markers_prefix_key, hb⟩
    rw [h.markers_eq ht, List.mem_singleton] at hmem
    exact Removal.key_inj hm (Prod.ext_iff.1 hmem).1
  constructor
  · intro n hn
    rw [honly n hn]
    exact h.owner_gone ht
  · intro n hn k hk
    exact ht.purged k (honly n hn ▸ hk)
  · intro k hk hspared
    apply h.rest
    · rintro rfl
      exact hk m.markers_prefix_key
    · exact hspared m (Table.contains_iff.2 ⟨_, h.marked⟩)

/-- A removal over a table that stores a journal leads to one that stores another. -/
theorem Journal.StoredIn.exists_final {m : Removal} (h : j.StoredIn t) (hm : m.Fits) (e : Engine) :
    ∃ i : Journal, i.StoredIn ((m.op e t).final t) := by
  rw [Run.final, Removal.commits_op]
  cases m with
  | root r => exact ⟨_, h.serve (s := ⟨e, { records := t }⟩) (q := .removeRoot r) trivial⟩
  | path r p => exact ⟨_, h.serve (s := ⟨e, { records := t }⟩) (q := .removeFile r p) hm⟩

theorem Reached.shown (h : Reached s) : ∃ j : Journal, j.ShownIn s := by
  cases h with
  | run e hqs => exact ⟨_, (stored_run e hqs).shown⟩
  | between e hqs e' hm ht hu =>
    have hstored := stored_run e hqs
    obtain ⟨i, hi⟩ := hstored.exists_final hm e'
    obtain ⟨htarget, hunderway⟩ := Removal.underway_of_mem_op hstored.unmarked_prefix e' _ ht
    have hfiled := (hstored.filed.keeps_op e' ht).of_interrupted hu
    rcases hunderway.of_interrupted htarget hm hu with rfl | hpurging
    · exact ⟨i, hi.shown⟩
    · exact ⟨i, hfiled, _, hi, hpurging.beside htarget hm⟩

end SyncLedger
