/-
  SyncLedger/Proofs/Consistency.lean
  ==================================
  **The latest state of every path follows from its history.**  After any run the records agree
  with each other (`Consistent`): each file record says what the newest version of its path
  says, no version is without a file record and no file without a root, and nothing is being
  removed.  All of it holds of every table that stores a journal, so it rests on the invariant
  of runs alone.

  The check that the engine offers, `Engine.verifyRoot`, therefore never finds damage
  (`Consistent.verified`).
-/
import SyncLedger.Proofs.Histories

namespace SyncLedger

variable {j : Journal} {t : Records} {r p : String}

/-- A version is stored under a path and no other is stored there with a greater timestamp. -/
def Newest (t : Records) (r p : String) (v : Version) : Prop :=
  t.fetch Codec.version (Key.version r p v.timestamp).bytes = .ok (some v) ∧
    ∀ ts, t.has (.version r p ts) = true → ts ≤ v.timestamp

/-- The records agree with each other. -/
structure Consistent (t : Records) : Prop where
  /-- Every key is that of a record. -/
  keyed : Keyed t
  /-- A file record names the path that it stands under and says what its newest version says;
      it is a tombstone just if that version removes the path. -/
  files : ∀ r p, Short r → Short p → ∀ b, t.get? (Key.file r p).bytes = some b →
    ∃ f v, Codec.file.read? b = some f ∧ f.root = r ∧ f.path = p ∧ Newest t r p v ∧
      v.hash = f.hash ∧ v.timestamp = f.timestamp ∧ (f.present = false ↔ v.removes p = true)
  /-- A version names the root and timestamp that it stands under, touches the path, and the
      path has a file record. -/
  versions : ∀ r p, Short r → Short p → ∀ ts b, t.get? (Key.version r p ts).bytes = some b →
    ∃ v, Codec.version.read? b = some v ∧ v.root = r ∧ v.timestamp = ts ∧ v.Touches p ∧
      t.has (.file r p) = true
  /-- The root of a file is registered. -/
  rooted : ∀ r p, Short r → Short p → t.has (.file r p) = true → t.has (.root r) = true
  /-- Nothing is being removed. -/
  unmarked : t.under Key.markers = []
  /-- The check of a root finds no damage. -/
  verified : ∀ r, Short r → ∀ x, (Roots.get r t).answer = .ok x →
    ∃ n, (Engine.verifyRoot r t).answer = .ok n

namespace Journal.StoredIn

theorem newest_of_last (h : j.StoredIn t) (hr : Short r) (hp : Short p) {v : Version}
    (hlast : (j r p).getLast? = some v) : Newest t r p v := by
  refine ⟨h.fetch_version hr hp (List.mem_of_getLast? hlast), ?_⟩
  intro ts hts
  obtain ⟨b, hb⟩ := Table.has_iff.1 hts
  obtain ⟨w, hw, rfl, _⟩ := (h.get?_version hr hp).1 hb
  exact timestamp_le_last (h.history r p hr hp) hlast w hw

/-- The engine reads the newest version of a path as its last one. -/
theorem outcome_latest (h : j.StoredIn t) (hr : Short r) (hp : Short p) :
    (History.latest r p).outcome t = (.ok (j r p).getLast?, t) := by
  rw [History.latest, Op.outcome_read]
  refine congrArg (·, t) ?_
  unfold Table.fetchLast Table.lastUnder?
  rw [h.versions r p hr hp, List.getLast?_map]
  cases hlast : (j r p).getLast? with
  | none => rfl
  | some v =>
    have hfits := (h.history r p hr hp).fits v (List.mem_of_getLast? hlast)
    simp [entry, (Codec.restores_version hfits).read?]

theorem check_fileAt (v : Version) (m : Metadata) :
    History.check (v.fileAt p m) (some v) = .ok () := by
  simp [History.check, Version.fileAt]

/-- A check of files that the table holds passes. -/
theorem checkEach_ok (h : j.StoredIn t) (hr : Short r) {fs : List File}
    (hfs : ∀ f ∈ fs, Short f.path ∧
      t.fetch Codec.file (Key.file r f.path).bytes = .ok (some f)) :
    (Engine.checkEach r fs).outcome t = (.ok (), t) := by
  induction fs with
  | nil => rfl
  | cons f fs ih =>
    obtain ⟨hp, hf⟩ := hfs f List.mem_cons_self
    obtain ⟨v, m, hlast, _, hfile⟩ := h.fetch_file hr hp hf
    have hcheck : History.check f (some v) = .ok () := by
      rw [hfile]
      exact check_fileAt v m
    have hnewest := h.outcome_latest hr hp
    rw [hlast] at hnewest
    unfold Engine.checkEach
    rw [Op.outcome_bind_ok hnewest]
    rw [Op.outcome_bind_ok (v := ()) (by rw [Op.outcome_read, hcheck])]
    exact ih fun g hg => hfs g (List.mem_cons_of_mem _ hg)

theorem verifyRoot_ok (h : j.StoredIn t) (hr : Short r) {x : Root}
    (hx : (Roots.get r).outcome t = (.ok x, t)) :
    ∃ n, (Engine.verifyRoot r).outcome t = (.ok n, t) := by
  obtain ⟨fs, hlist, hmem⟩ := h.listUnder (List.prefix_append Key.files (Key.segment r))
  have hfs : ∀ f ∈ fs, Short f.path ∧
      t.fetch Codec.file (Key.file r f.path).bytes = .ok (some f) := by
    intro f hf
    obtain ⟨hroot, hpath, hstarts, hfetch⟩ := (hmem f).1 hf
    have hkey : (Key.file f.root f.path).Fits := ⟨hroot, hpath⟩
    obtain ⟨p, heq⟩ := (Key.filesOf_prefix_iff hr hkey).1 hstarts
    obtain ⟨rfl, rfl⟩ : f.root = r ∧ f.path = p := by simpa using heq
    exact ⟨hpath, hfetch⟩
  refine ⟨fs.length, ?_⟩
  unfold Engine.verifyRoot
  rw [Op.outcome_bind_ok hx]
  exact (Op.outcome_bind_ok hlist).trans (Op.outcome_bind_ok (h.checkEach_ok hr hfs))

theorem consistent (h : j.StoredIn t) : Consistent t where
  keyed := h.keyed
  files r p hr hp b hb := by
    have hthere : t.has (.file r p) = true := Table.has_iff.2 ⟨b, hb⟩
    obtain ⟨f, hf⟩ := h.fetch_of_ne_nil hr hp ((h.has_file hr hp).1 hthere)
    obtain ⟨hroot, hpath, _⟩ := h.of_fetch_file hr hp hf
    obtain ⟨v, m, hlast, _, rfl⟩ := h.fetch_file hr hp hf
    obtain ⟨b', hb', hread⟩ := Table.fetch_eq_some_iff.1 hf
    obtain rfl : b = b' := Option.some.inj (hb.symm.trans hb')
    exact ⟨_, v, hread, hroot, hpath, h.newest_of_last hr hp hlast, rfl, rfl,
      by simp [Version.fileAt]⟩
  versions r p hr hp ts b hb := by
    obtain ⟨v, hv, hts, rfl⟩ := (h.get?_version hr hp).1 hb
    have hhistory := h.history r p hr hp
    exact ⟨v, (Codec.restores_version (hhistory.fits v hv)).read?, hhistory.root v hv, hts,
      hhistory.touches v hv, (h.has_file hr hp).2 (List.ne_nil_of_mem hv)⟩
  rooted r p hr hp hfile := h.rooted r p hr hp ((h.has_file hr hp).1 hfile)
  unmarked := h.unmarked_prefix
  verified r hr x hx := by
    obtain ⟨n, hn⟩ := h.verifyRoot_ok hr (Prod.ext hx rfl)
    exact ⟨n, Op.answer_eq hn⟩

end Journal.StoredIn

/-- **After any run the records agree with each other.** -/
theorem consistent_run (e : Engine) (cs : List Call) (hcs : ∀ c ∈ cs, c.Fits) :
    Consistent ((Session.fresh e).run cs).records :=
  (stored_run e hcs).consistent

theorem consistent_after_reuse :
    let t := ((Session.fresh Session.plain).run Session.renameAndReuse).records
    (∀ c ∈ Session.renameAndReuse, c.Fits) ∧ t.has (.file "r" "b") = true ∧ Consistent t :=
  ⟨Session.renameAndReuse_fits, by decide +kernel,
    consistent_run Session.plain Session.renameAndReuse Session.renameAndReuse_fits⟩

end SyncLedger
