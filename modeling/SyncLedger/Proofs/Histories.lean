/-
  SyncLedger/Proofs/Histories.lean
  ================================
  **The history of a path is its commit log.**  For a path with a file record the listing gives
  exactly the versions of the log in their order, a lookup by timestamp finds the version of
  the log with that timestamp and no other, and a removal counts them.

  A version that is stored is never altered: whatever is served next leaves it as it is or
  erases it.  Nor is it written over by another: the keys that a new version takes are free,
  the one under the former path included, which `History.append` does not check.
-/
import SyncLedger.Proofs.Sessions

namespace SyncLedger

variable {j : Journal} {t : Records} {r p : String}

/-- The version of a history with a given timestamp. -/
def versionIn (vs : List Version) (ts : UInt64) : Option Version :=
  vs.find? fun v => v.timestamp == ts

/-- Versions of one path with the same timestamp are the same. -/
theorem Journal.IsHistory.eq_of_timestamp {vs : List Version} (h : Journal.IsHistory r p vs)
    {v w : Version} (hv : v ∈ vs) (hw : w ∈ vs) (hts : v.timestamp = w.timestamp) : v = w := by
  have hnodup : (vs.map (·.timestamp)).Nodup := by
    refine List.pairwise_map.2 (h.increasing.imp ?_)
    intro a b hab heq
    exact UInt64.lt_irrefl b.timestamp (heq ▸ hab)
  exact List.inj_on_of_nodup_map hnodup hv hw hts

theorem Journal.IsHistory.versionIn_eq_some_iff {vs : List Version}
    (h : Journal.IsHistory r p vs) {ts : UInt64} {v : Version} :
    versionIn vs ts = some v ↔ v ∈ vs ∧ v.timestamp = ts := by
  constructor
  · intro hfind
    exact ⟨List.mem_of_find?_eq_some hfind, by simpa using List.find?_some hfind⟩
  · rintro ⟨hv, rfl⟩
    cases hfind : versionIn vs v.timestamp with
    | none =>
      have hnone := List.find?_eq_none.1 hfind v hv
      simp at hnone
    | some w =>
      have hts : w.timestamp = v.timestamp := by simpa using List.find?_some hfind
      rw [h.eq_of_timestamp (List.mem_of_find?_eq_some hfind) hv hts]

/-! ### Listing a path -/

namespace History

/-- The versions that stand under a path are listed as they stand, if its root and its file are
    there. -/
theorem answer_list_of_scan (hr : Short r) (hp : Short p) {vs : List Version}
    (hscan : t.scan Codec.version (Key.versionsAt r p)
      = .ok (vs.map fun v => ((Key.version r p v.timestamp).bytes, v)))
    (hroot : t.has (.root r) = true) (hfile : t.has (.file r p) = true)
    (hincreasing : vs.Pairwise (·.timestamp < ·.timestamp)) :
    (History.list (.path r p) t).answer = .ok vs := by
  have hlisted : (vs.map fun v => ((Key.version r p v.timestamp).bytes, v)).filter
      (History.isListed t (.path r p))
      = vs.map fun v => ((Key.version r p v.timestamp).bytes, v) := by
    apply List.filter_eq_self.2
    intro e he
    obtain ⟨v, _, rfl⟩ := List.mem_map.1 he
    simp [History.isListed, hr, hp, hroot, hfile]
  have hsorted : vs.mergeSort (fun v w => decide (v.timestamp ≤ w.timestamp)) = vs := by
    refine List.mergeSort_of_pairwise (hincreasing.imp ?_)
    intro v w hlt
    simpa using UInt64.le_of_lt hlt
  have hmap : (vs.map fun v => ((Key.version r p v.timestamp).bytes, v)).map (·.2) = vs := by
    rw [List.map_map]
    exact List.map_id _
  simp only [History.list, Op.read_apply, History.prefixOf, hscan]
  show Except.ok ((((vs.map _).filter (History.isListed t (.path r p))).map (·.2)).mergeSort
    fun v w => decide (v.timestamp ≤ w.timestamp)) = _
  rw [hlisted, hmap, hsorted]

/-- None of them is listed if its root or its file is gone. -/
theorem answer_list_of_gone {found : List (Bytes × Version)}
    (hscan : t.scan Codec.version (Key.versionsAt r p) = .ok found)
    (hkeys : ∀ e ∈ found, ∃ ts, Key.parseVersion? e.1 = some (r, p, ts))
    (hgone : t.has (.root r) = false ∨ t.has (.file r p) = false) :
    (History.list (.path r p) t).answer = .ok [] := by
  have hlisted : found.filter (History.isListed t (.path r p)) = [] := by
    apply List.filter_eq_nil_iff.2
    intro e he
    obtain ⟨ts, hparse⟩ := hkeys e he
    rcases hgone with hgone | hgone
    · simp [History.isListed, hparse, hgone]
    · simp [History.isListed, hparse, hgone]
  simp only [History.list, Op.read_apply, History.prefixOf, hscan]
  show Except.ok (((found.filter (History.isListed t (.path r p))).map (·.2)).mergeSort
    fun v w => decide (v.timestamp ≤ w.timestamp)) = _
  rw [hlisted, List.map_nil, List.mergeSort_nil]

end History

namespace Journal.StoredIn

theorem fetch_version (h : j.StoredIn t) (hr : Short r) (hp : Short p) {v : Version}
    (hv : v ∈ j r p) :
    t.fetch Codec.version (Key.version r p v.timestamp).bytes = .ok (some v) := by
  have hget := (h.get?_version hr hp).2 ⟨v, hv, rfl, rfl⟩
  have hfits := (h.history r p hr hp).fits v hv
  exact Table.fetch_eq_some_iff.2 ⟨_, hget, (Codec.restores_version hfits).read?⟩

/-- What stands under the key of a version is the version of the log, if there is one. -/
theorem fetch_versionIn (h : j.StoredIn t) (hr : Short r) (hp : Short p) (ts : UInt64) :
    t.fetch Codec.version (Key.version r p ts).bytes = .ok (versionIn (j r p) ts) := by
  have hhistory := h.history r p hr hp
  cases hfind : versionIn (j r p) ts with
  | some v =>
    obtain ⟨hv, rfl⟩ := hhistory.versionIn_eq_some_iff.1 hfind
    exact h.fetch_version hr hp hv
  | none =>
    rw [Table.fetch_eq_none_iff]
    cases hget : t.get? (Key.version r p ts).bytes with
    | none => rfl
    | some b =>
      obtain ⟨v, hv, hts, _⟩ := (h.get?_version hr hp).1 hget
      rw [hhistory.versionIn_eq_some_iff.2 ⟨hv, hts⟩] at hfind
      contradiction

/-! ### Reading a history -/

theorem requireFile_ok (h : j.StoredIn t) (hr : Short r) (hp : Short p)
    (hlive : t.has (.file r p) = true) : History.requireFile t r p = .ok () := by
  have hroot := h.rooted r p hr hp ((h.has_file hr hp).1 hlive)
  simp only [History.requireFile, hroot, hlive]
  rfl

theorem answer_get (h : j.StoredIn t) (hr : Short r) (hp : Short p)
    (hlive : t.has (.file r p) = true) (ts : UInt64) :
    (History.get r p ts t).answer = match versionIn (j r p) ts with
      | some v => .ok v
      | none => .error (.notFound (.version r p ts)) := by
  simp only [History.get, Op.read_apply, h.requireFile_ok hr hp hlive, h.fetch_versionIn hr hp]
  cases versionIn (j r p) ts with
  | none => rfl
  | some v => rfl

theorem scan_versions (h : j.StoredIn t) (hr : Short r) (hp : Short p) :
    t.scan Codec.version (Key.versionsAt r p)
      = .ok ((j r p).map fun v => ((Key.version r p v.timestamp).bytes, v)) := by
  rw [Table.scan, h.versions r p hr hp, Table.decodeAll_eq_ok_iff, List.forall₂_map_left_iff,
    List.forall₂_map_right_iff, List.forall₂_same]
  intro v hv
  exact ⟨rfl, (Codec.restores_version ((h.history r p hr hp).fits v hv)).read?⟩

theorem answer_list (h : j.StoredIn t) (hr : Short r) (hp : Short p)
    (hlive : t.has (.file r p) = true) :
    (History.list (.path r p) t).answer = .ok (j r p) :=
  History.answer_list_of_scan hr hp (h.scan_versions hr hp)
    (h.rooted r p hr hp ((h.has_file hr hp).1 hlive)) hlive (h.history r p hr hp).increasing

/-! ### What a call does to a stored version -/

/-- A path's history after a call is what it was, perhaps with one version more, or it is
    empty. -/
theorem note_cases (s : Session) (c : Call) (j : Journal) (r p : String) :
    (∃ vs, (eventOf s c).note j r p = j r p ++ vs) ∨ (eventOf s c).note j r p = [] := by
  rcases eventOf_quiet s c with hnone | hnone
  · rw [Event.note, hnone, erase_none]
    cases (eventOf s c).version? with
    | none => exact Or.inl ⟨[], (List.append_nil _).symm⟩
    | some v =>
      simp only [advance, Journal.record]
      split
      · exact Or.inl ⟨[v], rfl⟩
      · exact Or.inl ⟨[], (List.append_nil _).symm⟩
  · rw [Event.note, hnone]
    simp only [advance, Journal.erase]
    split
    · exact Or.inr rfl
    · exact Or.inl ⟨[], (List.append_nil _).symm⟩

/-- A version that is stored before a call is stored after it, or erased. -/
theorem version_kept_or_erased {s : Session} (h : j.StoredIn s.records) {c : Call} (hc : c.Fits)
    (hr : Short r) (hp : Short p) {ts : UInt64} {b : Bytes}
    (hb : s.records.get? (Key.version r p ts).bytes = some b) :
    (s.serve c).2.records.get? (Key.version r p ts).bytes = some b ∨
      (s.serve c).2.records.get? (Key.version r p ts).bytes = none := by
  obtain ⟨v, hv, rfl, rfl⟩ := (h.get?_version hr hp).1 hb
  have hafter := h.serve hc
  rcases note_cases s c j r p with ⟨vs, hvs⟩ | hnil
  · exact Or.inl ((hafter.get?_version hr hp).2
      ⟨v, hvs ▸ List.mem_append_left vs hv, rfl, rfl⟩)
  · refine Or.inr ?_
    cases hget : (s.serve c).2.records.get? (Key.version r p v.timestamp).bytes with
    | none => rfl
    | some b =>
      obtain ⟨w, hw, _⟩ := (hafter.get?_version hr hp).1 hget
      rw [hnil] at hw
      contradiction

theorem answer_removeFile (h : j.StoredIn t) (hr : Short r) (hp : Short p)
    (hlive : t.has (.file r p) = true) (batch : Nat) :
    (Files.remove r p batch t).answer = .ok (j r p).length := by
  have hroot := h.rooted r p hr hp ((h.has_file hr hp).1 hlive)
  rw [Op.answer_eq (Files.outcome_remove hroot hlive batch), h.versions r p hr hp,
    List.length_map]

end Journal.StoredIn

/-- **The history of a path is its commit log.**  After any run, for every path with a file
    record, the listing is the log of the path; its timestamps increase strictly from 1 on; a
    lookup finds the version of the log with exactly the given timestamp, or misses; and a
    removal answers with the length of the log.

    A version that is stored is left as it is by whatever call comes next, or erased.  Where the
    transaction of an observation chooses a timestamp, the keys of the new version are free
    under both of its paths, and the version is recorded: `History.append` refuses none. -/
theorem history_eq_commitLog (e : Engine) (cs : List Call) (hcs : ∀ c ∈ cs, c.Fits) :
    let t := ((Session.fresh e).run cs).records
    let log := commitLog ((Session.fresh e).events cs)
    (∀ r p, Short r → Short p → t.has (.file r p) = true →
      (History.list (.path r p) t).answer = .ok (log r p) ∧
      (log r p).Pairwise (·.timestamp < ·.timestamp) ∧
      (∀ v ∈ log r p, 1 ≤ v.timestamp) ∧
      (∀ ts, (History.get r p ts t).answer = match versionIn (log r p) ts with
        | some v => .ok v
        | none => .error (.notFound (.version r p ts))) ∧
      ∀ e' : Engine, (e'.removeFile r p t).answer = .ok (log r p).length) ∧
    (∀ c : Call, c.Fits → ∀ r p, Short r → Short p → ∀ ts b,
      t.get? (Key.version r p ts).bytes = some b →
      (((Session.fresh e).run cs).serve c).2.records.get? (Key.version r p ts).bytes = some b ∨
      (((Session.fresh e).run cs).serve c).2.records.get? (Key.version r p ts).bytes = none) ∧
    ∀ o : Observation, o.Fits → ∀ current source,
      t.fetch Codec.file (Key.file o.root o.path).bytes = .ok current →
      Files.sourceOf o t = .ok (source, t) →
      ∀ ts, o.timestampAbove (Files.floorOf current source) = .ok ts →
        t.has (.version o.root o.path ts) = false ∧
        (∀ f ∈ source, t.has (.version o.root f.path ts) = false) ∧
        ∀ now, ∃ u, Files.record o current source now t
          = .ok (.recorded (o.versionAt current source now ts), u) := by
  intro t log
  have h : log.StoredIn t := stored_run e hcs
  refine ⟨?_, ?_, ?_⟩
  · intro r p hr hp hlive
    have hhistory := h.history r p hr hp
    refine ⟨h.answer_list hr hp hlive, hhistory.increasing, fun v hv => ?_, fun ts => ?_,
      fun e' => h.answer_removeFile hr hp hlive _⟩
    · have hpositive := hhistory.positive v hv
      exact UInt64.le_iff_toNat_le.2 (UInt64.lt_iff_toNat_lt.1 hpositive)
    · exact h.answer_get hr hp hlive ts
  · intro c hc r p hr hp ts b hb
    exact h.version_kept_or_erased hc hr hp hb
  · intro o ho current source hcurrent hsource ts hts
    refine ⟨h.free ho hcurrent hsource hts (Or.inl rfl), ?_, ?_⟩
    · intro f hf
      exact h.free ho hcurrent hsource hts (Or.inr ⟨f, hf, rfl⟩)
    · intro now
      exact ⟨_, h.record_eq ho now hcurrent hsource hts⟩

/-- The former path of a file that was renamed has a history of two versions. -/
theorem history_after_reuse :
    let s := (Session.fresh Session.plain).run Session.renameAndReuse
    let log := commitLog ((Session.fresh Session.plain).events Session.renameAndReuse)
    (∀ c ∈ Session.renameAndReuse, c.Fits) ∧ s.records.has (.file "r" "a") = true ∧
      (History.list (.path "r" "a") s.records).answer = .ok (log "r" "a") ∧
      (s.engine.removeFile "r" "a" s.records).answer = .ok 2 := by
  intro s log
  have hlive : s.records.has (.file "r" "a") = true := by decide +kernel
  have htwo : (log "r" "a").length = 2 := by decide +kernel
  obtain ⟨hpaths, -⟩ :=
    history_eq_commitLog Session.plain Session.renameAndReuse Session.renameAndReuse_fits
  obtain ⟨hlist, -, -, -, hremove⟩ := hpaths "r" "a" (by decide) (by decide) hlive
  exact ⟨Session.renameAndReuse_fits, hlive, hlist, htwo ▸ hremove s.engine⟩

end SyncLedger
