/-
  SyncLedger/Proofs/Listings.lean
  ===============================
  **What a listing across paths shows, exactly.**  A version can be retrieved under the paths
  that it touches and whose copy has not been erased.  A listing of a root, or of everything,
  shows each such version once, in the order of timestamps, but for the versions that are lost
  (`Lost`): renames whose target path has a file record again although its copy of the rename
  was erased.  The copy under the source is passed over there, because the target is in use.

  A version is lost by a rename, the removal of its target, and a new file at the same path.
-/
import SyncLedger.Proofs.Histories

namespace SyncLedger

variable {j : Journal} {t : Records} {r p : String}

/-- A version is found under a path by its own timestamp. -/
def Retrievable (t : Records) (p : String) (v : Version) : Prop :=
  (History.get v.root p v.timestamp t).answer = .ok v

/-- The target of a version has a file record, but not the version. -/
def Lost (t : Records) (v : Version) : Prop :=
  t.has (.file v.root v.after) = true ∧ ¬ Retrievable t v.after v

namespace Journal.StoredIn

theorem get_ne_ok_of_missing (hmissing : t.has (.file r p) = false) (ts : UInt64) (v : Version) :
    (History.get r p ts t).answer ≠ .ok v := by
  have hrefused : ∃ e, History.requireFile t r p = .error e := by
    simp only [History.requireFile, hmissing]
    cases t.has (.root r) with
    | false => exact ⟨_, rfl⟩
    | true => exact ⟨_, rfl⟩
  obtain ⟨e, he⟩ := hrefused
  intro hget
  simp only [History.get, Op.read_apply, he] at hget
  cases hget

/-- What can be retrieved under a path is what the log has for it. -/
theorem retrievable_iff (h : j.StoredIn t) {v : Version} (hr : Short v.root) (hp : Short p) :
    Retrievable t p v ↔ v ∈ j v.root p := by
  have hhistory := h.history v.root p hr hp
  unfold Retrievable
  cases hlive : t.has (.file v.root p) with
  | false =>
    have hnil := h.eq_nil_of_missing hr hp (Or.inr hlive)
    rw [hnil]
    exact iff_of_false (get_ne_ok_of_missing hlive _ v) List.not_mem_nil
  | true =>
    rw [h.answer_get hr hp hlive]
    constructor
    · intro hv
      cases hfind : versionIn (j v.root p) v.timestamp with
      | none =>
        rw [hfind] at hv
        contradiction
      | some w =>
        rw [hfind] at hv
        obtain rfl : w = v := Except.ok.inj hv
        exact (hhistory.versionIn_eq_some_iff.1 hfind).1
    · intro hv
      rw [hhistory.versionIn_eq_some_iff.2 ⟨hv, rfl⟩]

/-- Every version under a prefix of version keys can be read, and is one of the log. -/
theorem scan_all (h : j.StoredIn t) {pre : Bytes} (hpre : Key.versions <+: pre) :
    ∃ found, t.scan Codec.version pre = .ok found ∧ ∀ k v, (k, v) ∈ found ↔
      ∃ r p, Short r ∧ Short p ∧ v ∈ j r p ∧ k = (Key.version r p v.timestamp).bytes ∧
        pre <+: k := by
  have hkey {k b : Bytes} (hk : pre <+: k) (hb : t.get? k = some b) : ∃ r p v, Short r ∧ Short p ∧
      v ∈ j r p ∧ k = (Key.version r p v.timestamp).bytes ∧ Codec.version.read? b = some v := by
    obtain ⟨key, hfits, rfl⟩ := h.keyed k b hb
    obtain ⟨r, p, ts, rfl⟩ := Key.versions_prefix_iff.1 (hpre.trans hk)
    obtain ⟨v, hv, rfl, rfl⟩ := (h.get?_version hfits.1 hfits.2).1 hb
    have hread := (Codec.restores_version ((h.history r p hfits.1 hfits.2).fits v hv)).read?
    exact ⟨r, p, v, hfits.1, hfits.2, hv, rfl, hread⟩
  have hread : ∀ e ∈ t.under pre, ∃ v, Codec.version.read? e.2 = some v := by
    intro e he
    obtain ⟨hk, hb⟩ := Table.mem_under.1 he
    obtain ⟨_, _, v, _, _, _, _, hread⟩ := hkey hk hb
    exact ⟨v, hread⟩
  obtain ⟨found, hfound⟩ := Table.exists_decodeAll hread
  have hscan : t.scan Codec.version pre = .ok found := hfound
  refine ⟨found, hscan, ?_⟩
  intro k v
  rw [Table.mem_scan hscan]
  constructor
  · rintro ⟨hk, hfetch⟩
    obtain ⟨b, hb, hread⟩ := Table.fetch_eq_some_iff.1 hfetch
    obtain ⟨r, p, w, hr, hp, hw, hkw, hread'⟩ := hkey hk hb
    obtain rfl : w = v := Option.some.inj (hread'.symm.trans hread)
    exact ⟨r, p, hr, hp, hw, hkw, hk⟩
  · rintro ⟨r, p, hr, hp, hv, rfl, hk⟩
    exact ⟨hk, h.fetch_version hr hp hv⟩

/-- Of a version that is stored, a listing across paths passes over the copy under the source
    where the target has a file record. -/
theorem isListed_iff (h : j.StoredIn t) {scope : Scope} (hscope : ∀ r p, scope ≠ .path r p)
    {v : Version} (hr : Short r) (hp : Short p) (hv : v ∈ j r p) :
    History.isListed t scope ((Key.version r p v.timestamp).bytes, v) = true ↔
      p = v.after ∨ t.has (.file r v.after) = false := by
  have hne : j r p ≠ [] := List.ne_nil_of_mem hv
  have hroot := h.rooted r p hr hp hne
  have hfile := (h.has_file hr hp).2 hne
  have hparse := Key.parseVersion?_bytes hr hp v.timestamp
  cases scope with
  | path q o => exact absurd rfl (hscope q o)
  | all | root q => simp [History.isListed, hparse, hroot, hfile]

/-- Only one copy of a version is shown. -/
theorem eq_of_shown (h : j.StoredIn t) {v : Version} {r q p o : String} (hr : Short r)
    (hp : Short p) (hq : Short q) (ho : Short o) (hv : v ∈ j r p) (hv' : v ∈ j q o)
    (hcopy : p = v.after ∨ t.has (.file r v.after) = false)
    (hcopy' : o = v.after ∨ t.has (.file q v.after) = false) : r = q ∧ p = o := by
  have hhistory := h.history r p hr hp
  have hhistory' := h.history q o hq ho
  obtain rfl : r = q := (hhistory.root v hv).symm.trans (hhistory'.root v hv')
  refine ⟨rfl, ?_⟩
  have hthere := (h.has_file hr hp).2 (List.ne_nil_of_mem hv)
  have hthere' := (h.has_file hr ho).2 (List.ne_nil_of_mem hv')
  rcases hhistory.touches v hv with hafter | hbefore
  · rcases hcopy' with hafter' | hgone
    · exact hafter.trans hafter'.symm
    · rw [hafter, hgone] at hthere
      contradiction
  · rcases hhistory'.touches v hv' with hafter' | hbefore'
    · rcases hcopy with hafter | hgone
      · exact hafter.trans hafter'.symm
      · rw [hafter', hgone] at hthere'
        contradiction
    · exact Option.some.inj (hbefore.symm.trans hbefore')

/-- A listing across paths, before it is sorted. -/
theorem listed (h : j.StoredIn t) {scope : Scope} (hscope : ∀ r p, scope ≠ .path r p)
    (hpre : Key.versions <+: History.prefixOf scope) : ∃ vs : List Version, vs.Nodup ∧
      (History.list scope t).answer
        = .ok (vs.mergeSort fun v w => decide (v.timestamp ≤ w.timestamp)) ∧
      ∀ v, v ∈ vs ↔ ∃ r p, Short r ∧ Short p ∧ v ∈ j r p ∧
        History.prefixOf scope <+: (Key.version r p v.timestamp).bytes ∧
        (p = v.after ∨ t.has (.file r v.after) = false) := by
  obtain ⟨found, hscan, hfound⟩ := h.scan_all hpre
  have hmem (v : Version) : v ∈ (found.filter (History.isListed t scope)).map (·.2) ↔
      ∃ r p, Short r ∧ Short p ∧ v ∈ j r p ∧
        History.prefixOf scope <+: (Key.version r p v.timestamp).bytes ∧
        (p = v.after ∨ t.has (.file r v.after) = false) := by
    simp only [List.mem_map, List.mem_filter]
    constructor
    · rintro ⟨⟨k, w⟩, ⟨hkw, hlisted⟩, rfl⟩
      obtain ⟨r, p, hr, hp, hw, rfl, hk⟩ := (hfound k w).1 hkw
      exact ⟨r, p, hr, hp, hw, hk, (h.isListed_iff hscope hr hp hw).1 hlisted⟩
    · rintro ⟨r, p, hr, hp, hv, hk, hcopy⟩
      exact ⟨(_, v), ⟨(hfound _ v).2 ⟨r, p, hr, hp, hv, rfl, hk⟩,
        (h.isListed_iff hscope hr hp hv).2 hcopy⟩, rfl⟩
  refine ⟨(found.filter (History.isListed t scope)).map (·.2), ?_, ?_, hmem⟩
  · have hkeys : (found.map (·.1)).Nodup := by
      rw [Table.map_fst_scan hscan]
      exact Table.nodup_keysUnder t _
    refine (hkeys.of_map.filter _).map_on ?_
    rintro ⟨k, v⟩ hkv ⟨k', v'⟩ hkv' heq
    obtain rfl : v = v' := heq
    obtain ⟨hkv, hshown⟩ := List.mem_filter.1 hkv
    obtain ⟨hkv', hshown'⟩ := List.mem_filter.1 hkv'
    obtain ⟨r, p, hr, hp, hv, rfl, _⟩ := (hfound k v).1 hkv
    obtain ⟨q, o, hq, ho, hv', rfl, _⟩ := (hfound k' v).1 hkv'
    obtain ⟨rfl, rfl⟩ := h.eq_of_shown hr hp hq ho hv hv'
      ((h.isListed_iff hscope hr hp hv).1 hshown) ((h.isListed_iff hscope hq ho hv').1 hshown')
    rfl
  · simp only [History.list, Op.read_apply, hscan]
    rfl

/-- A version is shown where it can be retrieved and is not lost. -/
theorem shown_iff (h : j.StoredIn t) {v : Version} (hr : Short v.root) :
    (∃ r p, Short r ∧ Short p ∧ v ∈ j r p ∧ (p = v.after ∨ t.has (.file r v.after) = false)) ↔
      (∃ p, Short p ∧ Retrievable t p v) ∧ ¬ Lost t v := by
  constructor
  · rintro ⟨r, p, hr', hp, hv, hcopy⟩
    obtain rfl : v.root = r := (h.history r p hr' hp).root v hv
    have hretrievable := (h.retrievable_iff hr hp).2 hv
    refine ⟨⟨p, hp, hretrievable⟩, fun ⟨hthere, hgone⟩ => ?_⟩
    rcases hcopy with rfl | hfree
    · exact hgone hretrievable
    · rw [hthere] at hfree
      contradiction
  · rintro ⟨⟨p, hp, hretrievable⟩, hkept⟩
    have hv := (h.retrievable_iff hr hp).1 hretrievable
    have hafter := ((h.history v.root p hr hp).fits v hv).after
    -- the copy under the source is shown just where the target is free
    cases hthere : t.has (.file v.root v.after) with
    | false => exact ⟨v.root, p, hr, hp, hv, Or.inr hthere⟩
    | true =>
      have htarget : Retrievable t v.after v := by
        by_contra hgone
        exact hkept ⟨hthere, hgone⟩
      exact ⟨v.root, v.after, hr, hafter, (h.retrievable_iff hr hafter).1 htarget, Or.inl rfl⟩

end Journal.StoredIn

theorem pairwise_byTimestamp (vs : List Version) :
    (vs.mergeSort fun v w => decide (v.timestamp ≤ w.timestamp)).Pairwise
      (·.timestamp ≤ ·.timestamp) := by
  refine (List.pairwise_mergeSort ?_ ?_ vs).imp of_decide_eq_true
  · intro u v w huv hvw
    exact decide_eq_true (UInt64.le_trans (of_decide_eq_true huv) (of_decide_eq_true hvw))
  · intro v w
    simpa using UInt64.le_total v.timestamp w.timestamp

/-- Whether the versions of a root are in scope of a listing across paths. -/
def Scope.coversRoot : Scope → String → Prop
  | .all, _ => True
  | .root r, q => q = r
  | .path _ _, _ => False

theorem Scope.coversRoot_iff {scope : Scope} (hscope : scope.Fits)
    (hacross : ∀ r p, scope ≠ .path r p) (hr : Short r) (hp : Short p) (ts : UInt64) :
    History.prefixOf scope <+: (Key.version r p ts).bytes ↔ scope.coversRoot r := by
  have hkey : (Key.version r p ts).Fits := ⟨hr, hp⟩
  cases scope with
  | all => simp [History.prefixOf, coversRoot, Key.versions_prefix_iff]
  | root q =>
    rw [History.prefixOf, Key.versionsOf_prefix_iff hscope hkey]
    simp [coversRoot]
  | path q o => exact absurd rfl (hacross q o)

/-- A listing across paths, in terms of what can be retrieved. -/
theorem Journal.StoredIn.list_across (h : j.StoredIn t) {scope : Scope} (hscope : scope.Fits)
    (hacross : ∀ r p, scope ≠ .path r p) : ∃ vs, (History.list scope t).answer = .ok vs ∧
      vs.Nodup ∧ vs.Pairwise (·.timestamp ≤ ·.timestamp) ∧
      ∀ v, v ∈ vs ↔ (Short v.root ∧ scope.coversRoot v.root) ∧
        (∃ p, Short p ∧ Retrievable t p v) ∧ ¬ Lost t v := by
  have hpre : Key.versions <+: History.prefixOf scope := by
    cases scope with
    | all => exact List.prefix_refl _
    | root r => exact List.prefix_append _ _
    | path r p => exact absurd rfl (hacross r p)
  obtain ⟨vs, hnodup, hlist, hmem⟩ := h.listed hacross hpre
  have hperm := vs.mergeSort_perm fun v w => decide (v.timestamp ≤ w.timestamp)
  refine ⟨_, hlist, hperm.nodup_iff.2 hnodup, pairwise_byTimestamp vs, ?_⟩
  intro v
  rw [hperm.mem_iff, hmem]
  constructor
  · rintro ⟨r, p, hr, hp, hv, hk, hcopy⟩
    obtain rfl := (h.history r p hr hp).root v hv
    have hin := (Scope.coversRoot_iff hscope hacross hr hp _).1 hk
    exact ⟨⟨hr, hin⟩, (h.shown_iff hr).1 ⟨v.root, p, hr, hp, hv, hcopy⟩⟩
  · rintro ⟨⟨hr, hin⟩, hshown⟩
    obtain ⟨q, p, hq, hp, hv, hcopy⟩ := (h.shown_iff hr).2 hshown
    obtain rfl := (h.history q p hq hp).root v hv
    exact ⟨v.root, p, hr, hp, hv, (Scope.coversRoot_iff hscope hacross hr hp _).2 hin, hcopy⟩

/-- **A listing across paths shows exactly the versions that can be retrieved and are not
    lost**, each once and in the order of timestamps. -/
theorem list_exact (e : Engine) (cs : List Call) (hcs : ∀ c ∈ cs, c.Fits) (scope : Scope)
    (hscope : scope.Fits) (hacross : ∀ r p, scope ≠ .path r p) :
    let t := ((Session.fresh e).run cs).records
    ∃ vs, (History.list scope t).answer = .ok vs ∧ vs.Nodup ∧
      vs.Pairwise (·.timestamp ≤ ·.timestamp) ∧
      ∀ v, v ∈ vs ↔ (Short v.root ∧ scope.coversRoot v.root) ∧
        (∃ p, Short p ∧ Retrievable t p v) ∧ ¬ Lost t v :=
  (stored_run e hcs).list_across hscope hacross

/-- The rename in `Session.renameAndReuse`. -/
def renamed : Version :=
  { root := "r", before := some "a", after := "b", date := ⟨0, 0⟩, client := ⟨1⟩, timestamp := 2,
    hash := "h", change := .renamed }

/-- Before its target is removed a rename is stored twice and listed once. -/
theorem rename_listed_once :
    let cs := Session.renameAndReuse.take 5
    let t := ((Session.fresh Session.plain).run cs).records
    (∀ c ∈ cs, c.Fits) ∧ Retrievable t "a" renamed ∧ Retrievable t "b" renamed ∧
      ∃ vs, (History.list .all t).answer = .ok vs ∧ vs.count renamed = 1 := by
  intro cs t
  have hcs : ∀ c ∈ cs, c.Fits := fun c hc =>
    Session.renameAndReuse_fits c (List.mem_of_mem_take hc)
  have h := stored_run Session.plain hcs
  have hr : Short renamed.root := by decide
  have ha : Retrievable t "a" renamed := (h.retrievable_iff hr (by decide)).2 (by decide +kernel)
  have hb : Retrievable t "b" renamed := (h.retrievable_iff hr (by decide)).2 (by decide +kernel)
  obtain ⟨vs, hlist, hnodup, -, hmem⟩ :=
    list_exact Session.plain cs hcs .all trivial nofun
  have hlisted : renamed ∈ vs :=
    (hmem renamed).2 ⟨⟨hr, trivial⟩, ⟨"a", by decide, ha⟩, fun hlost => hlost.2 hb⟩
  exact ⟨hcs, ha, hb, vs, hlist, List.count_eq_one_of_mem hnodup hlisted⟩

/-- A rename whose target was removed and written again can be retrieved under its source, and
    neither the listing of its root nor the one of everything shows it. -/
theorem rename_lost :
    let t := ((Session.fresh Session.plain).run Session.renameAndReuse).records
    (∀ c ∈ Session.renameAndReuse, c.Fits) ∧ Retrievable t "a" renamed ∧
      (∃ vs, (History.list .all t).answer = .ok vs ∧ renamed ∉ vs) ∧
      ∃ vs, (History.list (.root "r") t).answer = .ok vs ∧ renamed ∉ vs := by
  intro t
  have h := stored_run Session.plain Session.renameAndReuse_fits
  have hr : Short renamed.root := by decide
  have ha : Retrievable t "a" renamed := (h.retrievable_iff hr (by decide)).2 (by decide +kernel)
  have hb : ¬ Retrievable t "b" renamed := fun hb =>
    absurd ((h.retrievable_iff hr (by decide)).1 hb) (by decide +kernel)
  have hlost : Lost t renamed := ⟨by decide +kernel, hb⟩
  obtain ⟨vs, hall, -, -, hmem⟩ := h.list_across (show Scope.all.Fits from trivial) nofun
  obtain ⟨ws, hroot, -, -, hmem'⟩ := h.list_across (show (Scope.root "r").Fits from hr) nofun
  exact ⟨Session.renameAndReuse_fits, ha, ⟨vs, hall, fun hv => ((hmem renamed).1 hv).2.2 hlost⟩,
    ws, hroot, fun hv => ((hmem' renamed).1 hv).2.2 hlost⟩

end SyncLedger
