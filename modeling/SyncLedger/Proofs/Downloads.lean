/-
  SyncLedger/Proofs/Downloads.lean
  ================================
  **A download gives the bytes of its version, or says why not.**  Three layers decide: the records,
  whether there is such a version; the version, whether it leaves something under its path; and the
  contents, whether the bytes behind its hash are there.  The first two answer with a miss, the last
  reports corruption.

  After a run the bytes are there if they were put and the hash was not taken out since, whatever
  else was put, renamed or removed in between (`download_of_run`).  Only the call that takes a hash
  out makes its content go (`Session.has_serve`), and every blob is that of a content that was put
  (`Session.Stocked`).
-/
import SyncLedger.Proofs.Contents
import SyncLedger.Proofs.Visibility

namespace SyncLedger

variable {t : Records} {r p : String} {ts : UInt64} {v : Version}

/-! ### Layers -/

theorem Filed.get_missing (h : Filed t) {err : Error}
    (hget : (History.get r p ts t).answer = .error err) : ∃ m, err = .notFound m := by
  simp only [History.get, Op.read_apply, History.requireFile] at hget
  cases hroot : t.has (.root r) with
  | false =>
    rw [hroot] at hget
    exact ⟨_, (Except.error.inj hget).symm⟩
  | true =>
    cases hfile : t.has (.file r p) with
    | false =>
      rw [hroot, hfile] at hget
      exact ⟨_, (Except.error.inj hget).symm⟩
    | true =>
      rw [hroot, hfile] at hget
      cases hb : t.get? (Key.version r p ts).bytes with
      | none =>
        rw [Table.fetch_eq_none_iff.2 hb] at hget
        exact ⟨_, (Except.error.inj hget).symm⟩
      | some b =>
        -- a version that is there can be read
        obtain ⟨v, -, hread, -⟩ := h.version _ b (Key.versions_prefix_iff.2 ⟨r, p, ts, rfl⟩) hb
        rw [Table.fetch_eq_some_iff.2 ⟨b, hb, hread⟩] at hget
        contradiction

namespace Session

/-- The answer to a download. -/
def download (s : Session) (r p : String) (ts : UInt64) : Except Error Bytes :=
  (s.engine.download s.db.contents r p ts s.records).answer

/-- The answer to a lookup of a version. -/
def version (s : Session) (r p : String) (ts : UInt64) : Except Error Version :=
  (History.get r p ts s.records).answer

variable {s : Session}

theorem download_of_missing {err : Error} (h : s.version r p ts = .error err) :
    s.download r p ts = .error err := by
  unfold download Engine.download
  rw [Op.bind_of_error h]

theorem download_of_removed (h : s.version r p ts = .ok v) (hgone : v.removes p = true) :
    s.download r p ts = .error (.notFound (.removedVersion r p ts)) := by
  unfold download Engine.download
  rw [Op.bind_of_ok h]
  simp only [hgone, if_true]
  rfl

theorem download_of_fetch (h : s.version r p ts = .ok v) (hkept : v.removes p = false) :
    s.download r p ts = match s.db.contents.fetch s.engine.scheme v.hash with
      | .ok (some data) => .ok data
      | .ok none => .error (.corrupted (.noContent v.hash r p ts))
      | .error err => .error err := by
  unfold download Engine.download
  rw [Op.bind_of_ok h]
  simp only [hkept, Bool.false_eq_true, if_false]
  cases s.db.contents.fetch s.engine.scheme v.hash with
  | error err => rfl
  | ok found => cases found <;> rfl

/-! ### Contents through a run -/

theorem contents_serve (s : Session) (q : Call) :
    (∃ data, q = .putContent data ∧
        (s.serve q).2.db.contents = (s.db.contents.put s.engine.scheme data).2) ∨
      (∃ hash, q = .removeContent hash ∧
        (s.serve q).2.db.contents = s.db.contents.remove hash) ∨
      (s.serve q).2.db.contents = s.db.contents := by
  cases q with
  | putContent data => exact Or.inl ⟨data, rfl, rfl⟩
  | removeContent hash => exact Or.inr (Or.inl ⟨hash, rfl, rfl⟩)
  | restart c =>
    right
    right
    simp only [serve]
    split
    · rename_i engine db hopen
      obtain ⟨-, rfl⟩ := Engine.openOver_ok hopen
      rfl
    · rfl
  | _ => exact Or.inr (Or.inr rfl)

/-- Only one call makes the content of a hash go. -/
theorem has_serve {hash : String} {q : Call} (h : s.db.contents.has hash = true)
    (hq : q ≠ .removeContent hash) : (s.serve q).2.db.contents.has hash = true := by
  rcases s.contents_serve q with ⟨data, -, hput⟩ | ⟨hash', rfl, hremove⟩ | hsame
  · rw [hput]
    exact Contents.has_put h data
  · rw [hremove]
    apply Contents.has_remove h
    rintro rfl
    exact hq rfl
  · rw [hsame]
    exact h

theorem has_run {hash : String} {qs : List Call} (h : s.db.contents.has hash = true)
    (hqs : .removeContent hash ∉ qs) : (s.run qs).db.contents.has hash = true := by
  apply keeps_run (P := fun s => s.db.contents.has hash = true) _ h
  intro q hq s hs
  apply has_serve hs
  rintro rfl
  exact hqs hq

/-- The contents are under the scheme that the engine has, and were all put. -/
structure Stocked (σ : ContentScheme) (puts : Bytes → Prop) (s : Session) : Prop where
  scheme : s.engine.scheme = σ
  blobs : s.db.contents.PutFrom σ puts

namespace Stocked

variable {σ : ContentScheme} {puts : Bytes → Prop}

theorem of_fresh (e : Engine) : (fresh e).Stocked e.scheme puts :=
  ⟨rfl, fun _ _ hget => nomatch hget⟩

theorem serve {q : Call} (h : s.Stocked σ puts) (hq : ∀ data, q = .putContent data → puts data) :
    (s.serve q).2.Stocked σ puts where
  scheme := (congrArg Schemes.contents (s.schemes_serve q)).trans h.scheme
  blobs := by
    rcases s.contents_serve q with ⟨data, hcall, hput⟩ | ⟨hash, -, hremove⟩ | hsame
    · rw [hput, h.scheme]
      exact h.blobs.put (hq data hcall)
    · rw [hremove]
      exact h.blobs.remove hash
    · rw [hsame]
      exact h.blobs

theorem run {qs : List Call} (h : s.Stocked σ puts)
    (hqs : ∀ data, .putContent data ∈ qs → puts data) : (s.run qs).Stocked σ puts := by
  apply keeps_run _ h
  intro q hq s hs
  exact hs.serve fun data hcall => hqs data (hcall ▸ hq)

end Stocked

theorem run_append (s : Session) (before after : List Call) :
    s.run (before ++ after) = (s.run before).run after := by
  induction before generalizing s with
  | nil => rfl
  | cons q before ih => exact ih (s.serve q).2

/-- What is put stays until its hash is taken out, and until then it is fetched. -/
theorem fetch_run {e : Engine} {cs before after : List Call} {d : Bytes} {hash : String}
    (hcs : cs = before ++ .putContent d :: after)
    (hsound : e.scheme.SoundOn fun d => .putContent d ∈ cs)
    (hreply : (((fresh e).run before).serve (.putContent d)).1 = .ok (.stored hash))
    (hafter : .removeContent hash ∉ after) :
    ((fresh e).run cs).db.contents.fetch e.scheme hash = .ok (some d) := by
  have hfresh : (fresh e).Stocked e.scheme fun d => .putContent d ∈ cs := .of_fresh e
  have hbefore : ((fresh e).run before).Stocked e.scheme fun d => .putContent d ∈ cs :=
    hfresh.run fun _ hd => hcs ▸ List.mem_append_left _ hd
  have hall : ((fresh e).run cs).Stocked e.scheme fun d => .putContent d ∈ cs :=
    hfresh.run fun _ hd => hd
  obtain rfl : hash = e.scheme.hash d := by
    rw [← hbefore.scheme]
    exact (Reply.stored.inj (Except.ok.inj hreply)).symm
  apply hall.blobs.fetch hsound
  · rw [hcs]
    exact List.mem_append_right _ List.mem_cons_self
  · rw [hcs, run_append]
    apply has_run _ hafter
    rw [← hbefore.scheme]
    exact Contents.has_put_self _ _ d

/-! ### Any records and any contents -/

/-- The content of a hash, if there is one. -/
def content (s : Session) (hash : String) : Except Error (Option Bytes) :=
  s.db.contents.fetch s.engine.scheme hash

/-- Whatever is kept, a download of a version that leaves something gives bytes with the hash of
    the version, or says that they are corrupted. -/
theorem download_cases (h : s.version r p ts = .ok v) (hkept : v.removes p = false) :
    (∃ data, s.engine.scheme.hash data = v.hash ∧ s.download r p ts = .ok data) ∨
      ∃ w, s.download r p ts = .error (.corrupted w) := by
  rw [download_of_fetch h hkept]
  rcases Contents.fetch_cases s.engine.scheme s.db.contents v.hash with
    ⟨-, hnone⟩ | ⟨-, ⟨data, hhash, hfound⟩ | ⟨w, hw⟩⟩
  · rw [hnone]
    exact Or.inr ⟨_, rfl⟩
  · rw [hfound]
    exact Or.inl ⟨data, hhash, rfl⟩
  · rw [hw]
    exact Or.inr ⟨w, rfl⟩

theorem hash_of_download {data : Bytes} (h : s.download r p ts = .ok data) :
    ∃ v, s.version r p ts = .ok v ∧ s.engine.scheme.hash data = v.hash := by
  cases hv : s.version r p ts with
  | error err =>
    rw [download_of_missing hv] at h
    contradiction
  | ok v =>
    refine ⟨v, rfl, ?_⟩
    cases hgone : v.removes p with
    | true =>
      rw [download_of_removed hv hgone] at h
      contradiction
    | false =>
      rcases download_cases hv hgone with ⟨data', hhash, hdata⟩ | ⟨w, hw⟩
      · rw [h] at hdata
        obtain rfl := Except.ok.inj hdata
        exact hhash
      · rw [h] at hw
        contradiction

end Session

/-- **A download gives the bytes that were put, or an error that says why not.**  After a run in
    which unpacking undoes packing and no two contents that were put share a hash: a version that is
    not found is a miss, for the download as for the lookup; one that removes the path is a miss; and
    of any other the download gives the content that was put with its hash, if the hash was not taken
    out since, or reports corruption if there is no content of its hash.

    Whatever the records and the contents are, and wherever they come from, neither a download nor a
    lookup of a content gives bytes that have another hash than was asked for.  It gives bytes with
    that hash, or reports corruption; and the lookup also says so if there is nothing. -/
theorem download_of_run {e : Engine} {cs : List Call} (hcs : ∀ q ∈ cs, q.Fits)
    (hsound : e.scheme.SoundOn fun d => .putContent d ∈ cs) :
    let s := (Session.fresh e).run cs
    (∀ r p ts,
      (∀ err, s.version r p ts = .error err →
        (∃ m, err = .notFound m) ∧ s.download r p ts = .error err) ∧
      ∀ v, s.version r p ts = .ok v →
        (v.removes p = true → s.download r p ts = .error (.notFound (.removedVersion r p ts))) ∧
        (v.removes p = false →
          (∀ before d after, cs = before ++ .putContent d :: after →
            (((Session.fresh e).run before).serve (.putContent d)).1 = .ok (.stored v.hash) →
            .removeContent v.hash ∉ after → s.download r p ts = .ok d) ∧
          (s.db.contents.has v.hash = false →
            s.download r p ts = .error (.corrupted (.noContent v.hash r p ts))))) ∧
    ∀ u : Session,
      (∀ hash, (u.db.contents.has hash = false ∧ u.content hash = .ok none) ∨
        (u.db.contents.has hash = true ∧
          ((∃ data, u.engine.scheme.hash data = hash ∧ u.content hash = .ok (some data)) ∨
            ∃ w, u.content hash = .error (.corrupted w)))) ∧
      ∀ r p ts,
        (∀ data, u.download r p ts = .ok data →
          ∃ v, u.version r p ts = .ok v ∧ u.engine.scheme.hash data = v.hash) ∧
        ∀ v, u.version r p ts = .ok v → v.removes p = false →
          (∃ data, u.engine.scheme.hash data = v.hash ∧ u.download r p ts = .ok data) ∨
            ∃ w, u.download r p ts = .error (.corrupted w) := by
  intro s
  refine ⟨?_, ?_⟩
  · intro r p ts
    refine ⟨?_, ?_⟩
    · intro err herr
      exact ⟨(stored_run e hcs).filed.get_missing herr, Session.download_of_missing herr⟩
    · intro v hv
      refine ⟨Session.download_of_removed hv, ?_⟩
      intro hkept
      have hscheme : s.engine.scheme = e.scheme :=
        (Session.Stocked.run (.of_fresh e) fun d (_ : .putContent d ∈ cs) => trivial).scheme
      have hdownload := Session.download_of_fetch hv hkept
      rw [hscheme] at hdownload
      refine ⟨?_, ?_⟩
      · intro before d after hsplit hreply hafter
        rw [hdownload, Session.fetch_run hsplit hsound hreply hafter]
      · intro hnone
        rw [hdownload]
        rcases Contents.fetch_cases e.scheme s.db.contents v.hash with ⟨-, hfetch⟩ | ⟨hsome, -⟩
        · rw [hfetch]
        · rw [hnone] at hsome
          contradiction
  · intro u
    refine ⟨Contents.fetch_cases _ _, ?_⟩
    intro r p ts
    exact ⟨fun data => Session.hash_of_download, fun v => Session.download_cases⟩

/-! ### A run -/

namespace Session

/-- A file with a content is renamed and removed under its new path; another content comes and goes. -/
def contentRenamed : List Call :=
  [.registerClient ⟨1⟩ "c" ⟨0, 0⟩, .registerRoot "r" "o" "s" [] ⟨0, 0⟩, .joinRoot "r" ⟨1⟩ "s",
    .putContent [104, 105], seen "a" (ContentScheme.standard.hash [104, 105]) 1 none,
    seen "b" "h" 2 (some "a"), .putContent [], .removeContent (ContentScheme.standard.hash []),
    .removeFile "r" "b"]

theorem contentRenamed_fits : ∀ c ∈ contentRenamed, c.Fits := by
  simp only [contentRenamed, List.forall_mem_cons]
  have hroot : Short "r" := by decide
  refine ⟨trivial, hroot, trivial, trivial, ?_, ?_, trivial, trivial, ?_, by simp⟩
  · exact seen_fits (by decide) (by decide +kernel) (by simp)
  · apply seen_fits (by decide) (by decide)
    intro p hp
    obtain rfl := Option.some.inj hp
    decide
  · exact ⟨by decide, by decide⟩

theorem hash_ne_hash_nil :
    ContentScheme.standard.hash [104, 105] ≠ ContentScheme.standard.hash [] := by
  decide +kernel

theorem contentRenamed_sound :
    ContentScheme.standard.SoundOn fun d => .putContent d ∈ contentRenamed := by
  have hputs (d : Bytes) (hd : .putContent d ∈ contentRenamed) : d = [104, 105] ∨ d = [] := by
    simpa [contentRenamed, seen] using hd
  constructor
  · intro d hd
    apply Lz4.unpack?_pack
    rcases hputs d hd with rfl | rfl
    · decide
    · decide
  · intro d d' hd hd' hsame
    rcases hputs d hd with rfl | rfl
    · rcases hputs d' hd' with rfl | rfl
      · rfl
      · exact absurd hsame hash_ne_hash_nil
    · rcases hputs d' hd' with rfl | rfl
      · exact absurd hsame.symm hash_ne_hash_nil
      · rfl

end Session

/-- The first version is downloaded under the former path, the rename is a miss there. -/
theorem download_after_rename :
    let s := (Session.fresh Session.plain).run Session.contentRenamed
    (∀ c ∈ Session.contentRenamed, c.Fits) ∧
      (ContentScheme.standard.SoundOn fun d => .putContent d ∈ Session.contentRenamed) ∧
      s.download "r" "a" 1 = .ok [104, 105] ∧
      s.download "r" "a" 2 = .error (.notFound (.removedVersion "r" "a" 2)) := by
  intro s
  refine ⟨Session.contentRenamed_fits, Session.contentRenamed_sound, ?_⟩
  have hall := (download_of_run (e := Session.plain) Session.contentRenamed_fits
    Session.contentRenamed_sound).1
  have hversions : (s.version "r" "a" 1).toOption.map (fun v => (v.hash, v.removes "a"))
        = some (ContentScheme.standard.hash [104, 105], false) ∧
      (s.version "r" "a" 2).toOption.map (fun v => v.removes "a") = some true := by
    decide +kernel
  obtain ⟨hfirst, hsecond⟩ := hversions
  obtain ⟨v, hv, hboth⟩ := Option.map_eq_some_iff.1 hfirst
  obtain ⟨w, hw, hgone⟩ := Option.map_eq_some_iff.1 hsecond
  obtain ⟨hhash, hkept⟩ := Prod.mk.inj hboth
  constructor
  · have hput := ((hall "r" "a" 1).2 v (eq_ok_of_toOption hv)).2 hkept
    apply hput.1 (Session.contentRenamed.take 3) [104, 105] (Session.contentRenamed.drop 4) rfl
    · rw [hhash]
      rfl
    · rw [hhash]
      intro hmem
      simp [Session.contentRenamed, Session.seen, Session.hash_ne_hash_nil] at hmem
  · exact ((hall "r" "a" 2).2 w (eq_ok_of_toOption hw)).1 hgone

end SyncLedger
