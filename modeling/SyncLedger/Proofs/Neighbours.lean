/-
  SyncLedger/Proofs/Neighbours.lean
  =================================
  **Roots do not disturb one another.**  Everything of a root stands at its own key or under one of
  three prefixes that end in the segment of its name, and for short names no key is that of two
  roots (`Key.ofRoot_unique`), whatever characters they are made of.  A call that is addressed to a
  root writes to keys of that root and to clients (`RootOnly.serve`), so all that is read of another
  root is read as before (`roots_isolated`).

  The one call that finds out in the table what it removes is the removal of all files in a scope:
  it goes by the root and the path that a file record names.  That these are the ones in its key is
  what `FilesInPlace` is for.
-/
import SyncLedger.Proofs.Visibility

namespace SyncLedger

variable {r q : String} {s t u : Records} {k : Bytes} {batch : Nat}

/-! ### Keys of a root -/

namespace Key

/-- A key is of a root if it is the key of its record, or stands under the prefix of its files, of
    its versions or of its markers. -/
def OfRoot (r : String) (k : Bytes) : Prop :=
  k = (Key.root r).bytes ∨ ∃ mark ∈ [files, versions, markers], mark ++ segment r <+: k

theorem ofRoot_root (r : String) : OfRoot r (Key.root r).bytes := Or.inl rfl

theorem ofRoot_of_filesOf (h : filesOf r <+: k) : OfRoot r k := Or.inr ⟨files, by simp, h⟩

theorem ofRoot_of_versionsOf (h : versionsOf r <+: k) : OfRoot r k := Or.inr ⟨versions, by simp, h⟩

theorem ofRoot_of_versionsAt {p : String} (h : versionsAt r p <+: k) : OfRoot r k :=
  ofRoot_of_versionsOf ((List.prefix_append _ _).trans h)

theorem ofRoot_file (r p : String) : OfRoot r (Key.file r p).bytes :=
  ofRoot_of_filesOf (List.prefix_append _ _)

theorem ofRoot_version (r p : String) (ts : UInt64) : OfRoot r (Key.version r p ts).bytes :=
  ofRoot_of_versionsAt (List.prefix_append _ _)

theorem ofRoot_marker (r : String) (p : Option String) : OfRoot r (Key.marker r p).bytes := by
  right
  refine ⟨markers, by simp, ?_⟩
  rw [bytes_marker, List.prefix_append_right_inj]
  exact List.prefix_append _ _

theorem length_of_mem_marks {mark : Bytes} (h : mark ∈ [files, versions, markers]) :
    mark.length = 2 := by
  fin_cases h <;> rfl

theorem ofRoot_root_iff : OfRoot r (Key.root q).bytes ↔ q = r := by
  constructor
  · rintro (h | ⟨mark, hmark, hk⟩)
    · simpa using root_bytes_inj.1 h.symm
    · have hroots : roots = mark :=
        mark_unique (k := (Key.root q).bytes) (List.prefix_append _ _)
          ((List.prefix_append _ _).trans hk) (length_of_mem_marks hmark).symm
      subst hroots
      simp [roots, files, versions, markers] at hmark
  · rintro rfl
    exact ofRoot_root q

theorem not_ofRoot_of_clients (h : clients <+: k) : ¬ OfRoot r k := by
  rintro (rfl | ⟨mark, hmark, hk⟩)
  · obtain ⟨rest, hrest⟩ := h
    simp [bytes_root, clients, roots] at hrest
  · have hclients : clients = mark :=
      mark_unique h ((List.prefix_append _ _).trans hk) (length_of_mem_marks hmark).symm
    subst hclients
    simp [clients, files, versions, markers] at hmark

/-- No key is that of two roots. -/
theorem ofRoot_unique (hr : Short r) (hq : Short q) (hkr : OfRoot r k) (hkq : OfRoot q k) :
    r = q := by
  rcases hkr with rfl | ⟨mark, hmark, hkr⟩
  · exact ofRoot_root_iff.1 hkq
  · rcases hkq with rfl | ⟨mark', hmark', hkq⟩
    · exact (ofRoot_root_iff.1 (Or.inr ⟨mark, hmark, hkr⟩)).symm
    · have hsame : mark = mark' :=
        mark_unique ((List.prefix_append _ _).trans hkr) ((List.prefix_append _ _).trans hkq)
          ((length_of_mem_marks hmark).trans (length_of_mem_marks hmark').symm)
      subst hsame
      obtain ⟨x, rfl⟩ := hkr
      obtain ⟨y, hy⟩ := hkq
      rw [List.append_assoc, List.append_assoc, List.append_cancel_left_eq] at hy
      exact ((segment_append_inj hq hr).1 hy).1.symm

/-- Where the file of a path belongs, its marker and its versions do. -/
theorem ofRoot_of_file {p : String} (h : OfRoot r (Key.file q p).bytes) :
    OfRoot r (Key.marker q (some p)).bytes ∧ ∀ k, versionsAt q p <+: k → OfRoot r k := by
  -- what follows the mark is the same in all three families
  have htail : segment r <+: segment q ++ segment p := by
    rcases h with h | ⟨mark, hmark, hk⟩
    · simpa using root_bytes_inj.1 h.symm
    · have hfiles : files = mark :=
        mark_unique (k := (Key.file q p).bytes) (files_prefix_iff.2 ⟨q, p, rfl⟩)
          ((List.prefix_append _ _).trans hk) (length_of_mem_marks hmark).symm
      subst hfiles
      rwa [bytes_file, List.prefix_append_right_inj] at hk
  constructor
  · right
    refine ⟨markers, by simp, ?_⟩
    rw [bytes_marker, List.prefix_append_right_inj]
    exact htail
  · intro k hk
    right
    refine ⟨versions, by simp, List.IsPrefix.trans ?_ hk⟩
    rw [versionsAt, versionsOf, List.append_assoc, List.prefix_append_right_inj]
    exact htail

end Key

/-! ### What a call to a root writes -/

/-- Of the roots, only the one that is named differs, and clients may. -/
def RootOnly (r : String) (t u : Records) : Prop :=
  ∀ k, ¬ Key.clients <+: k → ¬ Key.OfRoot r k → u.get? k = t.get? k

namespace RootOnly

theorem refl (r : String) (t : Records) : RootOnly r t t := fun _ _ _ => rfl

theorem write (h : RootOnly r t u) (hk : Key.clients <+: k ∨ Key.OfRoot r k)
    (hsame : ∀ l, l ≠ k → s.get? l = u.get? l) : RootOnly r t s := by
  intro l hclient hroot
  rw [hsame l, h l hclient hroot]
  rintro rfl
  exact hk.elim hclient hroot

theorem insert (h : RootOnly r t u) (hk : Key.clients <+: k ∨ Key.OfRoot r k) (b : Bytes) :
    RootOnly r t (u.insert k b) :=
  h.write hk fun l hl => by rw [Table.get?_insert, if_neg hl]

theorem erase (h : RootOnly r t u) (hk : Key.clients <+: k ∨ Key.OfRoot r k) :
    RootOnly r t (u.erase k) :=
  h.write hk fun l hl => by rw [Table.get?_erase, if_neg hl]

theorem registryWrite (hs : RegistryWrite r u s) (h : RootOnly r t u) : RootOnly r t s := by
  cases hs with
  | client id c => exact h.insert (Or.inl (List.prefix_append _ _)) _
  | noClient id => exact h.erase (Or.inl (List.prefix_append _ _))
  | root => exact h.insert (Or.inr (Key.ofRoot_root r)) _

theorem keeps_drop {key : Key} (hk : Key.OfRoot r key.bytes) :
    Op.Keeps (RootOnly r t) (Op.drop key) :=
  .drop fun _ h => h.erase (Or.inr hk)

theorem keeps_purge {pre : Bytes} (hpre : ∀ k, pre <+: k → Key.OfRoot r k) :
    Op.Keeps (RootOnly r t) (Op.purge pre batch) := by
  intro u h s hs k hclient hroot
  rw [get?_of_mem_purge hs fun hk => hroot (hpre k hk)]
  exact h k hclient hroot

/-! ### Operations -/

theorem keeps_removeFile {p : String} (h : Key.OfRoot r (Key.file q p).bytes) :
    Op.Keeps (RootOnly r t) (Files.remove q p batch) := by
  obtain ⟨hmarker, hversions⟩ := Key.ofRoot_of_file h
  apply Op.Keeps.removeFile
  · intro u hu
    exact (hu.erase (Or.inr h)).insert (Or.inr hmarker) _
  · intro _ _ _
    exact ⟨keeps_purge hversions, keeps_drop hmarker⟩

theorem keeps_removeRoot (r : String) : Op.Keeps (RootOnly r t) (Roots.remove r batch) := by
  have hmarker := Key.ofRoot_marker r none
  apply RegistryWrite.keeps_removeRoot fun _ _ => registryWrite
  · intro u hu
    exact (hu.erase (Or.inr (Key.ofRoot_root r))).insert (Or.inr hmarker) _
  · intro _ _ _
    apply Op.Keeps.purgeRoot
    · exact keeps_purge fun _ => Key.ofRoot_of_filesOf
    · exact keeps_purge fun _ => Key.ofRoot_of_versionsOf
    · exact keeps_drop hmarker

theorem keeps_observe (o : Observation) (now : Instant) :
    Op.Keeps (RootOnly o.root t) (Files.observe o now) := by
  apply Op.keeps_commit
  intro u d s hu hs
  apply Files.reconcile_writes hs hu
  · intro x v hx
    exact hx.insert (Or.inr (Key.ofRoot_version _ _ _)) _
  · intro x ts hx
    exact hx.insert (Or.inr (Key.ofRoot_file _ _)) _
  · intro f _
    exact hu.insert (Or.inr (Key.ofRoot_file _ _)) _
  · intro p f _ _ _
    constructor
    · intro x v hx
      exact hx.insert (Or.inr (Key.ofRoot_version _ _ _)) _
    · intro x ts hx
      exact hx.insert (Or.inr (Key.ofRoot_file _ _)) _

end RootOnly

/-- The root that a scope lies in. -/
def Scope.In (r : String) : Scope → Prop
  | .all => False
  | .root q | .path q _ => q = r

theorem Files.fetch_of_latest {p : String} {f : File}
    (h : (Files.latest r p t).answer = .ok f) :
    t.fetch Codec.file (Key.file r p).bytes = .ok (some f) := by
  simp only [Files.latest, Op.read_apply] at h
  cases hroot : t.has (.root r) with
  | false =>
    rw [hroot] at h
    contradiction
  | true =>
    rw [hroot] at h
    cases hfetch : t.fetch Codec.file (Key.file r p).bytes with
    | error err =>
      rw [hfetch] at h
      contradiction
    | ok found =>
      rw [hfetch] at h
      cases found with
      | none => contradiction
      | some g => exact congrArg (Except.ok ∘ some) (Except.ok.inj h)

/-- What is listed of one path stands under its key. -/
theorem Files.fetch_of_mem_listPath {p : String} {fs : List File}
    (hfs : (Files.list (.path r p) t).answer = .ok fs) {f : File} (hf : f ∈ fs) :
    t.fetch Codec.file (Key.file r p).bytes = .ok (some f) := by
  simp only [Files.list, Op.answer_attempt_bind] at hfs
  cases hlatest : (Files.latest r p t).answer with
  | ok g =>
    rw [hlatest] at hfs
    obtain rfl := Except.ok.inj hfs
    obtain rfl := List.mem_singleton.1 hf
    exact Files.fetch_of_latest hlatest
  | error err =>
    rw [hlatest] at hfs
    cases err with
    | notFound m =>
      obtain rfl := Except.ok.inj hfs
      contradiction
    | _ => contradiction

/-- What is listed in a root stands under the prefix of its files. -/
theorem Files.fetch_of_mem_list {scope : Scope} (hin : scope.In r) {fs : List File}
    (hfs : (Files.list scope t).answer = .ok fs) {f : File} (hf : f ∈ fs) :
    ∃ k, Key.filesOf r <+: k ∧ t.fetch Codec.file k = .ok (some f) := by
  cases scope with
  | all => exact hin.elim
  | root q =>
    obtain rfl : q = r := hin
    simp only [Files.list, Files.listUnder, Op.read_apply] at hfs
    cases hes : t.scan Codec.file (Key.filesOf q) with
    | error err =>
      rw [hes] at hfs
      contradiction
    | ok es =>
      rw [hes] at hfs
      obtain rfl := Except.ok.inj hfs
      obtain ⟨⟨k, g⟩, he, rfl⟩ := List.mem_map.1 (List.mem_filter.1 hf).1
      exact ⟨k, (Table.mem_scan hes).1 he⟩
  | path q p =>
    obtain rfl : q = r := hin
    exact ⟨_, List.prefix_append _ _, Files.fetch_of_mem_listPath hfs hf⟩

/-- Any call that is addressed to the root. -/
def Call.Addresses (r : String) : Call → Prop
  | .registerRoot q _ _ _ _ | .joinRoot q _ _ | .setPassword q _ _ | .resetPassword q _ _
  | .removeFile q _ | .removeRoot q => q = r
  | .observe o _ | .recordEvent o _ => o.root = r
  | .removeAllFiles scope => scope.In r
  | _ => False

theorem RootOnly.keeps_removeAllFiles {scope : Scope} (hin : scope.In r) :
    Op.Keeps (fun u => RootOnly r t u ∧ FilesInPlace u) (Files.removeAll scope batch) := by
  apply Op.Keeps.removeAllFiles
  rintro u fs ⟨-, hplace⟩ hfs f hf
  obtain ⟨k, hpre, hfetch⟩ := Files.fetch_of_mem_list hin hfs hf
  have hkey := hplace k f ((List.prefix_append _ _).trans hpre) hfetch
  have hroot : Key.OfRoot r (Key.file f.root f.path).bytes := hkey ▸ Key.ofRoot_of_filesOf hpre
  intro v hv w hw
  exact ⟨keeps_removeFile hroot v hv.1 w hw,
    FilesInPlace.hereditary.keeps_removeFile _ _ v hv.2 w hw⟩

theorem RootOnly.serve {s : Session} {c : Call} (hplace : FilesInPlace s.records)
    (hc : c.Addresses r) : RootOnly r s.records (s.serve c).2.records := by
  have hstart : RootOnly r s.records s.records := .refl r s.records
  have hwrites : ∀ t u, RegistryWrite r t u → RootOnly r s.records t → RootOnly r s.records u :=
    fun _ _ => registryWrite
  cases c with
  | registerRoot q owner password salt now =>
    obtain rfl : q = r := hc
    apply (RegistryWrite.keeps_registerRoot _ _ owner password salt now).final hstart
    intro t x _ _ _ h
    exact h.insert (Or.inr (Key.ofRoot_root q)) _
  | joinRoot q id password =>
    obtain rfl : q = r := hc
    exact (RegistryWrite.keeps_join hwrites _ id password).final hstart
  | setPassword q password salt =>
    obtain rfl : q = r := hc
    exact (RegistryWrite.keeps_setPassword hwrites _ password salt).final hstart
  | resetPassword q random salt =>
    obtain rfl : q = r := hc
    exact (RegistryWrite.keeps_resetPassword hwrites _ _ _ salt).final hstart
  | observe o now =>
    obtain rfl : o.root = r := hc
    exact (keeps_observe o now).final hstart
  | recordEvent o now =>
    obtain rfl : o.root = r := hc
    have hattempts (stamp : Stamp) := keeps_observe (t := s.records) { o with stamp } now
    exact (Op.Keeps.attempts hattempts _ ⟨o.stamp, rfl⟩).final hstart
  | removeFile q p =>
    obtain rfl : q = r := hc
    exact (keeps_removeFile (Key.ofRoot_file q p)).final hstart
  | removeAllFiles scope => exact ((keeps_removeAllFiles hc).final ⟨hstart, hplace⟩).1
  | removeRoot q =>
    obtain rfl : q = r := hc
    exact (keeps_removeRoot q).final hstart
  | _ => exact hc.elim

/-! ### What is read of a root -/

/-- Two tables on which a root, and the roots that its files name, are the same. -/
structure SameRoot (q : String) (s t : Records) : Prop where
  keys : ∀ k, Key.OfRoot q k → s.get? k = t.get? k
  named : ∀ k f, Key.filesOf q <+: k → t.fetch Codec.file k = .ok (some f) →
    s.has (.root f.root) = t.has (.root f.root)

namespace SameRoot

open Op

theorem has_root (h : SameRoot q s t) : s.has (.root q) = t.has (.root q) :=
  Table.has_congr (h.keys _ (Key.ofRoot_root q))

theorem has_file (h : SameRoot q s t) (p : String) : s.has (.file q p) = t.has (.file q p) :=
  Table.has_congr (h.keys _ (Key.ofRoot_file q p))

theorem scan {α : Type} (h : SameRoot q s t) (c : Codec α) {pre : Bytes}
    (hpre : ∀ k, pre <+: k → Key.OfRoot q k) : s.scan c pre = t.scan c pre := by
  rw [Table.scan, Table.scan, Table.under_congr fun k hk => h.keys k (hpre k hk)]

theorem agrees_get (h : SameRoot q s t) : Agrees (Roots.get q) s t := by
  apply agrees_read
  rw [Table.fetch_congr (h.keys _ (Key.ofRoot_root q))]

theorem agrees_members (h : SameRoot q s t) : Agrees (Roots.members q) s t :=
  h.agrees_get.bind fun _ _ => agrees_pure _

theorem agrees_latest (h : SameRoot q s t) (p : String) : Agrees (Files.latest q p) s t := by
  apply agrees_read
  rw [h.has_root, Table.fetch_congr (h.keys _ (Key.ofRoot_file q p))]

theorem agrees_version (h : SameRoot q s t) (p : String) (ts : UInt64) :
    Agrees (History.get q p ts) s t := by
  apply agrees_read
  rw [History.requireFile, History.requireFile, h.has_root, h.has_file,
    Table.fetch_congr (h.keys _ (Key.ofRoot_version q p ts))]

theorem agrees_download (h : SameRoot q s t) (e : Engine) (contents : Contents) (p : String)
    (ts : UInt64) : Agrees (e.download contents q p ts) s t :=
  Engine.agrees_download_of (h.agrees_version p ts) e contents

theorem agrees_listFiles (h : SameRoot q s t) {scope : Scope} (hin : scope.In q) :
    Agrees (Files.list scope) s t := by
  cases scope with
  | all => exact hin.elim
  | root r =>
    obtain rfl : r = q := hin
    apply agrees_read
    rw [h.scan Codec.file fun _ => Key.ofRoot_of_filesOf]
    cases hes : t.scan Codec.file (Key.filesOf r) with
    | error err => rfl
    | ok es =>
      refine congrArg Except.ok (List.filter_congr ?_)
      intro f hf
      obtain ⟨⟨k, f⟩, he, rfl⟩ := List.mem_map.1 hf
      obtain ⟨hpre, hfetch⟩ := (Table.mem_scan hes).1 he
      exact h.named k f hpre hfetch
  | path r p =>
    obtain rfl : r = q := hin
    exact Files.agrees_listPath_of (h.agrees_latest p)

theorem agrees_listVersions (h : SameRoot q s t) (hq : Short q) {scope : Scope}
    (hin : scope.In q) : Agrees (History.list scope) s t := by
  have hpre : Key.versionsOf q <+: History.prefixOf scope := by
    cases scope with
    | all => exact hin.elim
    | root r =>
      obtain rfl : r = q := hin
      exact List.prefix_rfl
    | path r p =>
      obtain rfl : r = q := hin
      exact List.prefix_append _ _
  have hlisted (e : Bytes × Version) (he : Key.versionsOf q <+: e.1) :
      History.isListed s scope e = History.isListed t scope e := by
    unfold History.isListed
    split
    · rfl
    · rename_i r p ts hparse
      obtain ⟨⟨hr, -⟩, hkey⟩ := Key.parseVersion?_eq_some_iff.1 hparse
      -- the root that the listing asks for is read off the key, and the key is of `q`
      obtain rfl : r = q := by
        apply Key.ofRoot_unique hr hq (k := e.1)
        · rw [hkey]
          exact Key.ofRoot_version r p ts
        · exact Key.ofRoot_of_versionsOf he
      simp only [h.has_root, h.has_file]
  apply agrees_read
  rw [h.scan Codec.version fun _ hk => Key.ofRoot_of_versionsOf (hpre.trans hk)]
  cases hes : t.scan Codec.version (History.prefixOf scope) with
  | error err => rfl
  | ok es =>
    have hsame : es.filter (History.isListed s scope) = es.filter (History.isListed t scope) := by
      apply List.filter_congr
      rintro ⟨k, v⟩ he
      exact hlisted _ (hpre.trans ((Table.mem_scan hes).1 he).1)
    show Except.ok (((es.filter (History.isListed s scope)).map (·.2)).mergeSort _) = _
    rw [hsame]
    rfl

theorem agrees_latestVersion (h : SameRoot q s t) (p : String) :
    Agrees (History.latest q p) s t := by
  apply agrees_read
  rw [Table.fetchLast, Table.fetchLast, Table.lastUnder?, Table.lastUnder?,
    Table.under_congr fun k hk => h.keys k (Key.ofRoot_of_versionsAt hk)]

theorem agrees_verifyRoot (h : SameRoot q s t) : Agrees (Engine.verifyRoot q) s t := by
  apply Engine.agrees_verifyRoot_of h.agrees_get
  · exact h.agrees_listFiles (show (Scope.root q).In q from rfl)
  · intro _ _ f _
    exact h.agrees_latestVersion f.path

end SameRoot

/-- Every reader of a root answers alike on both tables, with the same value or the same error. -/
structure RootReadAlike (q : String) (s t : Records) : Prop where
  get : Roots.get q s = Roots.get q t
  members : Roots.members q s = Roots.members q t
  latest : ∀ p, Files.latest q p s = Files.latest q p t
  version : ∀ p ts, History.get q p ts s = History.get q p ts t
  listFiles : ∀ scope : Scope, scope.In q → Files.list scope s = Files.list scope t
  listVersions : ∀ scope : Scope, scope.In q → History.list scope s = History.list scope t
  download : ∀ (e : Engine) contents p ts,
    e.download contents q p ts s = e.download contents q p ts t
  verifyRoot : Engine.verifyRoot q s = Engine.verifyRoot q t

theorem SameRoot.readAlike (h : SameRoot q s t) (hq : Short q) : RootReadAlike q s t where
  get := h.agrees_get.1
  members := h.agrees_members.1
  latest p := (h.agrees_latest p).1
  version p ts := (h.agrees_version p ts).1
  listFiles _ hin := (h.agrees_listFiles hin).1
  listVersions _ hin := (h.agrees_listVersions hq hin).1
  download e contents p ts := (h.agrees_download e contents p ts).1
  verifyRoot := h.agrees_verifyRoot.1

theorem RootOnly.sameRoot (h : RootOnly r t s) (hplace : FilesInPlace t) (hr : Short r)
    (hq : Short q) (hne : r ≠ q) : SameRoot q s t where
  keys k hk := by
    apply h k
    · intro hclient
      exact Key.not_ofRoot_of_clients hclient hk
    · intro hk'
      exact hne (Key.ofRoot_unique hr hq hk' hk)
  named k f hpre hfetch := by
    have hkey := hplace k f ((List.prefix_append _ _).trans hpre) hfetch
    apply Table.has_congr
    apply h
    · intro hclient
      exact Key.not_ofRoot_of_clients hclient (Key.ofRoot_root f.root)
    · -- a file that names `r` stands under a key of `r`, and none of these is a key of `q`
      intro hroot
      obtain rfl := Key.ofRoot_root_iff.1 hroot
      have hk : Key.OfRoot f.root k := hkey ▸ Key.ofRoot_file f.root f.path
      exact hne (Key.ofRoot_unique hr hq hk (Key.ofRoot_of_filesOf hpre))

/-- **Roots are isolated from one another.**  A call that is addressed to one root, whether or not
    it succeeds, leaves the record, the files, the versions and the markers of every other root and
    all contents as they are; so every reader of the other root answers as before. -/
theorem roots_isolated {s : Session} (h : FilesInPlace s.records) (hr : Short r) (hq : Short q)
    (hne : r ≠ q) {c : Call} (hc : c.Addresses r) :
    let u := (s.serve c).2
    (∀ k, Key.OfRoot q k → u.records.get? k = s.records.get? k) ∧
      u.db.contents = s.db.contents ∧ u.engine = s.engine ∧
      RootReadAlike q u.records s.records := by
  intro u
  have hsame : SameRoot q u.records s.records := (RootOnly.serve h hc).sameRoot h hr hq hne
  have hrest : u.db.contents = s.db.contents ∧ u.engine = s.engine := by
    cases c with
    | registerClient | removeClient | removeAllClients | removeAllRoots | sweepOrphans
    | putContent | removeContent | restart => exact hc.elim
    | _ => exact ⟨rfl, rfl⟩
  exact ⟨hsame.keys, hrest.1, hrest.2, hsame.readAlike hq⟩

/-! ### A run -/

/-- Two roots, of which the name of one goes on from the other's, and a file of the same path in
    each. -/
def Session.siblings : List Call :=
  [.registerClient ⟨1⟩ "c" ⟨0, 0⟩, .registerRoot "r" "o" "s" [] ⟨0, 0⟩,
    .registerRoot "rr" "o" "s" [] ⟨0, 0⟩, .joinRoot "r" ⟨1⟩ "s", .joinRoot "rr" ⟨1⟩ "s",
    seen "a" "h" 1 none,
    .observe { root := "rr", path := "a", client := ⟨1⟩, hash := "g", stamp := .exact 1 } ⟨0, 0⟩]

theorem Session.siblings_fits : ∀ c ∈ siblings, c.Fits := by
  simp only [siblings, List.forall_mem_cons]
  have hroots : Short "r" ∧ Short "rr" := by decide
  refine ⟨trivial, hroots.1, hroots.2, trivial, trivial, ?_, ⟨⟨hroots.2, ?_, ?_, ?_, ?_⟩, ?_⟩, ?_⟩
  · exact seen_fits (by decide) (by decide) (by simp)
  · decide
  · decide
  · intro t ht
    simp at ht
  · simp
  · exact ⟨by decide, by decide⟩
  · simp

theorem sibling_stays :
    let s := (Session.fresh Session.plain).run Session.siblings
    let u := (s.serve (.removeRoot "r")).2
    FilesInPlace s.records ∧ (Call.removeRoot "r").Addresses "r" ∧
      u.records.has (.root "r") = false ∧ u.records.has (.file "r" "a") = false ∧
      u.records.get? (Key.file "rr" "a").bytes = s.records.get? (Key.file "rr" "a").bytes ∧
      Engine.verifyRoot "rr" u.records = Engine.verifyRoot "rr" s.records ∧
      (Engine.verifyRoot "rr" s.records).answer.toOption = some 1 := by
  intro s u
  have hplace : FilesInPlace s.records :=
    (stored_run Session.plain Session.siblings_fits).filed.inPlace
  have hall := roots_isolated hplace (r := "r") (q := "rr") (by decide) (by decide) (by decide)
    (c := .removeRoot "r") rfl
  refine ⟨hplace, rfl, by decide +kernel, by decide +kernel, ?_, ?_, by decide +kernel⟩
  · exact hall.1 _ (Key.ofRoot_file "rr" "a")
  · exact hall.2.2.2.verifyRoot

end SyncLedger
