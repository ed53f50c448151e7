/-
  SyncLedger/Proofs/Untouched.lean
  ================================
  **What calls leave alone.**  A path that no call is about keeps its file record, byte for byte, and
  stays open, whatever else is observed, registered, removed, swept or recovered in the meantime
  (`Resting.serve`).  A client stays a member of a root through every call but a removal of one of
  the two (`Enrolled.serve`).

  A cascade finds in the table what it removes, so that the record of a file names its own key is
  part of the invariant (`FilesInPlace.serve`).  Recovery looks again before it purges, and what is
  registered is not purged under a marker that was left behind.
-/
import SyncLedger.Proofs.Neighbours
import SyncLedger.Proofs.RosterRuns

namespace SyncLedger

variable {t u : Records} {o : Observation} {now : Instant} {r p q : String} {b k : Bytes}
  {batch n : Nat} {c : Uuid}

/-! ### Recovery -/

/-- What is in use is not reserved. -/
theorem Sweep.reserve_owned {m : Option String}
    (h : t.has (match m with | none => .root q | some p => .file q p) = true) :
    Sweep.reserve q m t = .ok (false, t) := by
  unfold Sweep.reserve
  cases m with
  | none | some p =>
    dsimp only at h ⊢
    rw [Txn.bind_of_ok (Txn.has_eq_ok_iff.2 ⟨rfl, rfl⟩),
      Txn.bind_of_ok (Txn.has_eq_ok_iff.2 ⟨rfl, rfl⟩), h]
    rfl

namespace Op.Keeps

variable {P : Records → Prop}

/-- What is purged on behalf of a marker may depend on the root, or the file, being gone. -/
theorem finish_gone
    (hroot : ∀ r t, P t → t.has (.root r) = false → Keeps P (Roots.purge r batch))
    (hpath : ∀ r p, Keeps P (History.purge r p batch)) (m : Marker) :
    Keeps P (Sweep.finish m batch) := by
  unfold Sweep.finish
  split
  · refine (keeps_read _).bind_of_ok ?_
    intro t live ht hlive
    split
    · exact keeps_pure _
    · rename_i hgone
      have hgone : t.has (.root m.root) = false := by
        obtain rfl := Except.ok.inj hlive
        simpa using hgone
      exact (hroot m.root t ht hgone).bind fun _ => keeps_pure _
  · refine (keeps_read _).bind ?_
    intro live
    split
    · exact keeps_pure _
    · exact (hpath m.root _).bind fun _ => keeps_pure _

theorem pending_gone
    (hroot : ∀ r t, P t → t.has (.root r) = false → Keeps P (Roots.purge r batch))
    (hpath : ∀ r p, Keeps P (History.purge r p batch))
    (herase : ∀ k, Key.markers <+: k → ∀ t, P t → P (t.erase k)) :
    Keeps P (Sweep.pending batch) := by
  have heach (ms : List (Bytes × Marker)) (hms : ∀ e ∈ ms, Key.markers <+: e.1)
      (report : Sweep.Report) : Keeps P (Sweep.finishEach batch ms report) := by
    induction ms generalizing report with
    | nil => exact keeps_pure _
    | cons e ms ih =>
      obtain ⟨hfirst, hrest⟩ := List.forall_mem_cons.1 hms
      apply (finish_gone hroot hpath e.2).bind
      intro done
      apply (erase (herase e.1 hfirst)).bind
      intro _
      exact ih hrest _
  refine (keeps_read _).bind_of_ok ?_
  intro t ms _ hms
  exact heach ms (fun e he => ((Table.mem_scan hms).1 he).1) {}

end Op.Keeps

/-! ### Files in place -/

namespace FilesInPlace

theorem of_files (h : FilesInPlace t) (hs : ∀ k, Key.files <+: k → u.get? k = t.get? k) :
    FilesInPlace u := by
  intro k f hk hf
  rw [Table.fetch_congr (hs k hk)] at hf
  exact h k f hk hf

theorem insert_file (h : FilesInPlace t) (hr : Short r) (hp : Short p) {f : File}
    (hroot : f.root = r) (hpath : f.path = p) :
    FilesInPlace (t.insert (Key.file r p).bytes (Codec.file.encode f)) := by
  subst hroot hpath
  apply h.insert
  intro _ g hg
  obtain ⟨hgroot, hgpath⟩ := Codec.place_of_read?_file hr hp hg
  rw [hgroot, hgpath]

theorem insert_version (h : FilesInPlace t) (r p : String) (ts : UInt64) (b : Bytes) :
    FilesInPlace (t.insert (Key.version r p ts).bytes b) := by
  apply h.insert
  intro hk
  simpa using Key.files_prefix_iff.1 hk

/-- A file that is found under a key of short names is that of these names. -/
theorem place (h : FilesInPlace t) (hr : Short r) (hp : Short p) {f : File}
    (hf : t.fetch Codec.file (Key.file r p).bytes = .ok (some f)) : f.root = r ∧ f.path = p := by
  have hkey := h _ f (Key.files_prefix_iff.2 ⟨_, _, rfl⟩) hf
  exact (Key.file_bytes_inj_of_short hr hp).1 hkey.symm

theorem keeps_observe (ho : o.Fits) : Op.Keeps FilesInPlace (Files.observe o now) := by
  apply Op.keeps_commit
  intro t d s h hs
  apply Files.reconcile_writes hs h
  · intro u v hu
    exact hu.insert_version _ _ _ _
  · intro u ts hu
    exact hu.insert_file ho.root ho.path rfl rfl
  · intro f hf
    obtain ⟨hroot, hpath⟩ := h.place ho.root ho.path hf
    exact h.insert_file ho.root ho.path hroot hpath
  · intro p f hp _ hf
    have hshort : Short p := ho.former p (Observation.source?_eq_some hp).1
    obtain ⟨hroot, rfl⟩ := h.place ho.root hshort hf
    constructor
    · intro u v hu
      exact hu.insert_version _ _ _ _
    · intro u ts hu
      exact hu.insert_file ho.root hshort hroot rfl

theorem serve {s : Session} {q : Call} (h : FilesInPlace s.records) (hq : q.Fits) :
    FilesInPlace (s.serve q).2.records := by
  have hregistry (r : String) (t u : Records) (hs : RegistryWrite r t u) (h : FilesInPlace t) :
      FilesInPlace u := h.of_files fun k hk => hs.get?_of_outside (Key.outside_of_files hk)
  apply Session.keeps_serve hregistry _ _ _ hereditary.keeps_orphans _ _ h
  · intro r t x _ _ _ h
    apply h.insert
    intro hk
    simpa using Key.files_prefix_iff.1 hk
  · intro r
    exact hereditary.keeps_removeRoot (hregistry r)
  · intro r p
    exact hereditary.keeps_removeFile r p
  · intro o now hcall stamp
    have ho : o.Fits := by
      rcases hcall with rfl | rfl
      · exact hq.1
      · exact hq.1
    exact keeps_observe ⟨ho.root, ho.path, ho.hash, ho.metadata, ho.former⟩
  · intro c _ e
    exact hereditary.keeps_pending

end FilesInPlace

/-! ### Paths at rest -/

/-- Calls that are not about a path: neither an observation of it nor a removal that covers it. -/
def Call.Spares (r p : String) : Call → Prop
  | .observe o _ | .recordEvent o _ => o.root = r → ¬ (p = o.path ∨ o.source? = some p)
  | .removeFile q o => ¬ (q = r ∧ o = p)
  | .removeAllFiles scope => scope.covers r p = false
  | .removeRoot q => q ≠ r
  | .removeAllRoots => False
  | _ => True

/-- The root is registered, no marker stands over the path, and this is its file record. -/
structure Resting (r p : String) (b : Bytes) (t : Records) : Prop where
  root : t.has (.root r) = true
  opened : t.has (.marker r (some p)) = false
  file : t.get? (Key.file r p).bytes = some b

namespace Resting

theorem has_file (h : Resting r p b t) : t.has (.file r p) = true := Table.has_iff.2 ⟨b, h.file⟩

theorem insert (h : Resting r p b t) (hfile : k ≠ (Key.file r p).bytes)
    (hmarker : k ≠ (Key.marker r (some p)).bytes) (v : Bytes) : Resting r p b (t.insert k v) where
  root := by
    obtain ⟨w, hw⟩ := Table.has_iff.1 h.root
    rw [Table.has_iff, Table.get?_insert]
    split
    · exact ⟨v, rfl⟩
    · exact ⟨w, hw⟩
  opened := by
    rw [Table.has_eq_false_iff, Table.get?_insert, if_neg hmarker.symm]
    exact Table.has_eq_false_iff.1 h.opened
  file := by
    rw [Table.get?_insert, if_neg hfile.symm]
    exact h.file

/-- Whatever else goes. -/
theorem sub (h : Resting r p b t) (hs : u.Sub t)
    (hroot : u.get? (Key.root r).bytes = t.get? (Key.root r).bytes)
    (hfile : u.get? (Key.file r p).bytes = t.get? (Key.file r p).bytes) : Resting r p b u where
  root := Table.has_congr hroot ▸ h.root
  opened := Table.has_eq_false_iff.2 (hs.get?_eq_none (Table.has_eq_false_iff.1 h.opened))
  file := hfile.trans h.file

theorem erase (h : Resting r p b t) (hroot : k ≠ (Key.root r).bytes)
    (hfile : k ≠ (Key.file r p).bytes) : Resting r p b (t.erase k) := by
  apply h.sub (Table.sub_erase t k)
  · rw [Table.get?_erase, if_neg hroot.symm]
  · rw [Table.get?_erase, if_neg hfile.symm]

theorem keeps_purge {pre : Bytes} (hroot : ¬ pre <+: (Key.root r).bytes)
    (hfile : ¬ pre <+: (Key.file r p).bytes) : Op.Keeps (Resting r p b) (Op.purge pre batch) := by
  intro t h s hs
  exact h.sub (sub_of_mem_purge hs) (get?_of_mem_purge hs hroot) (get?_of_mem_purge hs hfile)

/-! ### Steps -/

theorem insert_registry (h : Resting r p b t) (hk : ¬ Key.Outside k) (v : Bytes) :
    Resting r p b (t.insert k v) := by
  apply h.insert
  · rintro rfl
    exact hk (Key.outside_file r p)
  · rintro rfl
    exact hk (Key.outside_marker r (some p))

theorem registryWrite (hs : RegistryWrite q t u) (h : Resting r p b t) : Resting r p b u := by
  cases hs with
  | client id c => exact h.insert_registry (fun hout => hout.1 (List.prefix_append _ _)) _
  | noClient id =>
    apply h.erase
    · exact (RegistryOnly.root_ne_client r id).symm
    · intro heq
      exact (heq ▸ Key.outside_file r p : Key.Outside (Key.client id).bytes).1
        (List.prefix_append _ _)
  | root => exact h.insert_registry (fun hout => hout.2 (List.prefix_append _ _)) _

theorem insert_marker (h : Resting r p b t) (hr : Short r) (hp : Short p) {m : Option String}
    (hm : q = r → m ≠ some p) (v : Bytes) : Resting r p b (t.insert (Key.marker q m).bytes v) := by
  apply h.insert
  · intro heq
    have hfile : Key.files <+: (Key.marker q m).bytes := heq ▸ Key.files_prefix_iff.2 ⟨r, p, rfl⟩
    simpa using Key.files_prefix_iff.1 hfile
  · intro heq
    obtain ⟨rfl, rfl⟩ := (Key.marker_bytes_inj_of_short hr (by simpa using hp)).1 heq
    exact hm rfl rfl

theorem erase_marker (h : Resting r p b t) (hk : Key.markers <+: k) :
    Resting r p b (t.erase k) := by
  apply h.erase
  · rintro rfl
    simpa using Key.markers_prefix_iff.1 hk
  · rintro rfl
    simpa using Key.markers_prefix_iff.1 hk

theorem insert_file {o : String} (h : Resting r p b t) (hr : Short r) (hp : Short p)
    (hother : ¬ (q = r ∧ o = p)) (v : Bytes) : Resting r p b (t.insert (Key.file q o).bytes v) := by
  apply h.insert
  · intro heq
    exact hother ((Key.file_bytes_inj_of_short hr hp).1 heq)
  · intro heq
    have hmarker : Key.markers <+: (Key.file q o).bytes :=
      heq ▸ Key.markers_prefix_iff.2 ⟨r, some p, rfl⟩
    simpa using Key.markers_prefix_iff.1 hmarker

theorem insert_version (h : Resting r p b t) (q o : String) (ts : UInt64) (v : Bytes) :
    Resting r p b (t.insert (Key.version q o ts).bytes v) := by
  have hversion : Key.versions <+: (Key.version q o ts).bytes :=
    Key.versions_prefix_iff.2 ⟨q, o, ts, rfl⟩
  apply h.insert
  · intro heq
    rw [heq] at hversion
    simpa using Key.versions_prefix_iff.1 hversion
  · intro heq
    rw [heq] at hversion
    simpa using Key.versions_prefix_iff.1 hversion

theorem keeps_drop (q : String) (m : Option String) :
    Op.Keeps (Resting r p b) (Op.drop (.marker q m)) :=
  .drop fun _ h => h.erase_marker (Key.markers_prefix_iff.2 ⟨q, m, rfl⟩)

theorem keeps_purgePath (q o : String) : Op.Keeps (Resting r p b) (History.purge q o batch) := by
  apply keeps_purge
  · intro hpre
    exact (Key.outside_of_versionsAt hpre).2 (List.prefix_append _ _)
  · intro hpre
    simpa using Key.versions_prefix_iff.1 (Key.versions_prefix_versionsAt.trans hpre)

theorem keeps_purgeRoot (hr : Short r) (hp : Short p) (hq : q ≠ r) :
    Op.Keeps (Resting r p b) (Roots.purge q batch) := by
  apply Op.Keeps.purgeRoot
  · apply keeps_purge
    · intro hpre
      exact (Key.outside_of_filesOf hpre).2 (List.prefix_append _ _)
    · intro hpre
      exact hq ((Key.filesOf_prefix_file_iff hr hp).1 hpre)
  · apply keeps_purge
    · intro hpre
      exact (Key.outside_of_versionsOf hpre).2 (List.prefix_append _ _)
    · intro hpre
      simpa using Key.versions_prefix_iff.1 ((List.prefix_append _ _).trans hpre)
  · exact keeps_drop q none

/-! ### Operations -/

theorem keeps_removeRoot (hr : Short r) (hp : Short p) (hq : q ≠ r) :
    Op.Keeps (Resting r p b) (Roots.remove q batch) := by
  apply RegistryWrite.keeps_removeRoot fun _ _ => registryWrite
  · intro t h
    have herased : Resting r p b (t.erase (Key.root q).bytes) := by
      apply h.erase
      · intro heq
        exact hq (Key.root.inj (Key.root_bytes_inj.1 heq)).symm
      · intro heq
        simpa using Key.root_bytes_inj.1 heq
    exact herased.insert_marker hr hp (by simp) _
  · intro _ _ _
    exact keeps_purgeRoot hr hp hq

theorem keeps_removeFile {o : String} (hr : Short r) (hp : Short p) (hother : ¬ (q = r ∧ o = p)) :
    Op.Keeps (Resting r p b) (Files.remove q o batch) := by
  apply Op.Keeps.removeFile
  · intro t h
    have herased : Resting r p b (t.erase (Key.file q o).bytes) := by
      apply h.erase
      · intro heq
        simpa using Key.root_bytes_inj.1 heq.symm
      · intro heq
        exact hother ((Key.file_bytes_inj_of_short hr hp).1 heq)
    apply herased.insert_marker hr hp
    rintro rfl heq
    exact hother ⟨rfl, Option.some.inj heq⟩
  · intro _ _ _
    exact ⟨keeps_purgePath q o, keeps_drop q (some o)⟩

/-- The listing that a removal of all files goes by names no file that its scope does not cover. -/
theorem not_listed (hplace : FilesInPlace t) (hr : Short r) (hp : Short p) {scope : Scope}
    (hscope : scope.covers r p = false) {fs : List File}
    (hfs : (Files.list scope t).answer = .ok fs) {f : File} (hf : f ∈ fs) :
    ¬ (f.root = r ∧ f.path = p) := by
  rintro ⟨rfl, rfl⟩
  cases scope with
  | all => cases hscope
  | root q =>
    obtain ⟨k, hpre, hfetch⟩ := Files.fetch_of_mem_list (show (Scope.root q).In q from rfl) hfs hf
    have hkey := hplace k f ((List.prefix_append _ _).trans hpre) hfetch
    obtain rfl := (Key.filesOf_prefix_file_iff hr hp).1 (hkey ▸ hpre)
    simp [Scope.covers] at hscope
  | path q o =>
    have hfetch := Files.fetch_of_mem_listPath hfs hf
    have hkey := hplace _ f (Key.files_prefix_iff.2 ⟨q, o, rfl⟩) hfetch
    obtain ⟨rfl, rfl⟩ := (Key.file_bytes_inj_of_short hr hp).1 hkey
    simp [Scope.covers] at hscope

theorem keeps_removeAllFiles (hr : Short r) (hp : Short p) {scope : Scope}
    (hscope : scope.covers r p = false) :
    Op.Keeps (fun t => Resting r p b t ∧ FilesInPlace t) (Files.removeAll scope batch) := by
  apply Op.Keeps.removeAllFiles
  rintro t fs ⟨-, hplace⟩ hfs f hf
  have hother := not_listed hplace hr hp hscope hfs hf
  intro u hu s hs
  exact ⟨keeps_removeFile hr hp hother u hu.1 s hs,
    FilesInPlace.hereditary.keeps_removeFile _ _ u hu.2 s hs⟩

theorem keeps_observe (hr : Short r) (hp : Short p) (ho : o.Fits)
    (hspares : o.root = r → ¬ (p = o.path ∨ o.source? = some p)) :
    Op.Keeps (fun t => Resting r p b t ∧ FilesInPlace t) (Files.observe o now) := by
  have htarget : ¬ (o.root = r ∧ o.path = p) := fun h => hspares h.1 (Or.inl h.2.symm)
  apply Op.keeps_commit
  rintro t d s ⟨h, hplace⟩ hs
  constructor
  · apply Files.reconcile_writes hs h
    · intro u v hu
      exact hu.insert_version _ _ _ _
    · intro u ts hu
      exact hu.insert_file hr hp htarget _
    · intro f _
      exact h.insert_file hr hp htarget _
    · intro q f hq _ hf
      have hshort : Short q := ho.former q (Observation.source?_eq_some hq).1
      obtain ⟨-, rfl⟩ := hplace.place ho.root hshort hf
      have hsource : ¬ (o.root = r ∧ f.path = p) := fun h => hspares h.1 (Or.inr (h.2 ▸ hq))
      constructor
      · intro u v hu
        exact hu.insert_version _ _ _ _
      · intro u ts hu
        exact hu.insert_file hr hp hsource _
  · have hcommit : s ∈ (Files.observe o now t).commits := by
      rw [Files.observe, Op.commit_of_ok hs]
      exact List.mem_singleton_self s
    exact FilesInPlace.keeps_observe ho t hplace s hcommit

/-- What has its root, or its file, is not reserved. -/
theorem keeps_orphans (hr : Short r) (hp : Short p) :
    Op.Keeps (Resting r p b) (Sweep.orphans batch) := by
  have howned {m : Option String} {t s : Records} (h : Resting r p b t)
      (hs : Sweep.reserve r m t = .ok (true, s)) : ¬ (m = none ∨ m = some p) := by
    rintro (rfl | rfl)
    · simp [Sweep.reserve_owned (m := none) h.root] at hs
    · simp [Sweep.reserve_owned (m := some p) h.has_file] at hs
  apply Op.Keeps.orphans
  · intro q m
    apply Op.keeps_commit
    intro t v s h hs
    rcases Sweep.reserve_cases q m t with hno | ⟨-, hyes⟩
    · obtain ⟨-, rfl⟩ := Prod.ext_iff.1 (Except.ok.inj (hno.symm.trans hs))
      exact h
    · obtain ⟨-, rfl⟩ := Prod.ext_iff.1 (Except.ok.inj (hyes.symm.trans hs))
      apply h.insert_marker hr hp
      rintro rfl rfl
      exact howned h hyes (Or.inr rfl)
  · intro q t h hyes
    apply keeps_purgeRoot hr hp
    rintro rfl
    obtain ⟨s, hs⟩ := Op.exists_of_commit hyes
    exact howned h hs (Or.inl rfl)
  · intro q o _ _ _
    exact ⟨keeps_purgePath q o, keeps_drop q (some o)⟩

theorem keeps_pending (hr : Short r) (hp : Short p) :
    Op.Keeps (Resting r p b) (Sweep.pending batch) := by
  apply Op.Keeps.pending_gone
  · intro q t h hgone
    apply keeps_purgeRoot hr hp
    rintro rfl
    rw [h.root] at hgone
    contradiction
  · exact keeps_purgePath
  · intro k hk t h
    exact h.erase_marker hk

/-! ### Runs -/

theorem serve {s : Session} {c : Call} (h : Resting r p b s.records) (hr : Short r) (hp : Short p)
    (hplace : FilesInPlace s.records) (hc : c.Fits) (hspares : c.Spares r p) :
    Resting r p b (s.serve c).2.records := by
  have hregistry (q : String) (t u : Records) (hs : RegistryWrite q t u) :
      Resting r p b t → Resting r p b u := registryWrite hs
  cases c with
  | registerClient id address now =>
    exact (RegistryWrite.keeps_registerClient (hregistry "") id _ address now).final h
  | removeClient id => exact (RegistryWrite.keeps_removeClient hregistry id).final h
  | removeAllClients => exact (RegistryWrite.keeps_removeAllClients hregistry).final h
  | registerRoot q owner password salt now =>
    apply (RegistryWrite.keeps_registerRoot _ _ owner password salt now).final h
    intro t x _ _ _ h
    exact h.insert_registry (fun hout => hout.2 (List.prefix_append _ _)) _
  | joinRoot q id password =>
    exact (RegistryWrite.keeps_join (hregistry q) _ id password).final h
  | setPassword q password salt =>
    exact (RegistryWrite.keeps_setPassword (hregistry q) _ password salt).final h
  | resetPassword q random salt =>
    exact (RegistryWrite.keeps_resetPassword (hregistry q) _ _ _ salt).final h
  | observe o now => exact ((keeps_observe hr hp hc.1 hspares).final ⟨h, hplace⟩).1
  | recordEvent o now =>
    have hattempts (stamp : Stamp) : Op.Keeps (fun t => Resting r p b t ∧ FilesInPlace t)
        (Files.observe { o with stamp } now) :=
      keeps_observe hr hp ⟨hc.1.root, hc.1.path, hc.1.hash, hc.1.metadata, hc.1.former⟩ hspares
    exact ((Op.Keeps.attempts hattempts _ ⟨o.stamp, rfl⟩).final ⟨h, hplace⟩).1
  | removeFile q o => exact (keeps_removeFile hr hp hspares).final h
  | removeAllFiles scope => exact ((keeps_removeAllFiles hr hp hspares).final ⟨h, hplace⟩).1
  | removeRoot q => exact (keeps_removeRoot hr hp hspares).final h
  | removeAllRoots => exact hspares.elim
  | sweepOrphans => exact (keeps_orphans hr hp).final h
  | putContent data => exact h
  | removeContent hash => exact h
  | restart config =>
    simp only [Session.serve]
    split
    · rename_i engine db hopen
      obtain ⟨-, rfl⟩ := Engine.openOver_ok hopen
      have hrecover : Op.Keeps (Resting r p b) engine.recover := keeps_pending hr hp
      exact hrecover.final h
    · exact h

theorem run {s : Session} {cs : List Call} (h : Resting r p b s.records) (hr : Short r)
    (hp : Short p) (hplace : FilesInPlace s.records) (hcs : ∀ c ∈ cs, c.Fits ∧ c.Spares r p) :
    Resting r p b (s.run cs).records := by
  have hserve (c : Call) (hc : c ∈ cs) (s : Session) :
      Resting r p b s.records ∧ FilesInPlace s.records →
        Resting r p b (s.serve c).2.records ∧ FilesInPlace (s.serve c).2.records := by
    rintro ⟨h, hplace⟩
    obtain ⟨hfits, hspares⟩ := hcs c hc
    exact ⟨h.serve hr hp hplace hfits hspares, hplace.serve hfits⟩
  exact (Session.keeps_run hserve ⟨h, hplace⟩).1

end Resting

/-! ### Members -/

/-- Calls that remove neither a client nor a root. -/
def Call.KeepsMember (r : String) (c : Uuid) : Call → Prop
  | .removeClient id => id ≠ c
  | .removeRoot q => q ≠ r
  | .removeAllClients | .removeAllRoots => False
  | _ => True

/-- The record of a root can be read, is of a size that can be stored, and has the client. -/
def Enrolled (n : Nat) (r : String) (c : Uuid) (t : Records) : Prop :=
  ∃ x, t.fetch Codec.root (Key.root r).bytes = .ok (some x) ∧ x.Storable n ∧ c ∈ x.members

namespace Enrolled

theorem mono {m : Nat} (h : Enrolled n r c t) (hnm : n ≤ m) : Enrolled m r c t := by
  obtain ⟨x, hx, hstorable, hin⟩ := h
  exact ⟨x, hx, hstorable.mono hnm, hin⟩

theorem congr (h : Enrolled n r c t) (hs : u.get? (Key.root r).bytes = t.get? (Key.root r).bytes) :
    Enrolled n r c u := by
  obtain ⟨x, hx, hrest⟩ := h
  exact ⟨x, (Table.fetch_congr hs Codec.root).trans hx, hrest⟩

theorem sameRegistry (h : Enrolled n r c t) (hs : SameRegistry t u) : Enrolled n r c u :=
  h.congr (hs _ (Or.inr (List.prefix_append _ _)))

theorem has_root (h : Enrolled n r c t) : t.has (.root r) = true := by
  obtain ⟨x, hx, -⟩ := h
  obtain ⟨b, hb, -⟩ := Table.fetch_eq_some_iff.1 hx
  exact Table.has_iff.2 ⟨b, hb⟩

theorem insert_client (h : Enrolled n r c t) (id : Uuid) (b : Bytes) :
    Enrolled n r c (t.insert (Key.client id).bytes b) :=
  h.congr (by rw [Table.get?_insert, if_neg (RegistryOnly.root_ne_client r id)])

theorem erase_client (h : Enrolled n r c t) (id : Uuid) :
    Enrolled n r c (t.erase (Key.client id).bytes) :=
  h.congr (by rw [Table.get?_erase, if_neg (RegistryOnly.root_ne_client r id)])

/-- Another root is written. -/
theorem insert_other (h : Enrolled n r c t) (hq : q ≠ r) (b : Bytes) :
    Enrolled n r c (t.insert (Key.root q).bytes b) := by
  apply h.congr
  rw [Table.get?_insert, if_neg]
  intro heq
  exact hq (Key.root.inj (Key.root_bytes_inj.1 heq))

/-- A root that is there is written again, and keeps the client if it is the one. -/
theorem rewrite {m : Nat} (h : Enrolled n r c t) (hnm : n ≤ m) (hm : m < 2 ^ 64) {old x : Root}
    (hold : t.fetch Codec.root (Key.root q).bytes = .ok (some old))
    (hx : q = r → old.Storable n → c ∈ old.members → x.Storable m ∧ c ∈ x.members) :
    Enrolled m r c (t.insert (Key.root q).bytes (Codec.root.encode x)) := by
  by_cases hq : q = r
  · subst hq
    obtain ⟨y, hy, hstorable, hin⟩ := h
    obtain rfl : old = y := by simpa [hold] using hy
    obtain ⟨hstorable, hin⟩ := hx rfl hstorable hin
    refine ⟨x, Table.fetch_eq_some_iff.2 ⟨Codec.root.encode x, ?_, ?_⟩, hstorable, hin⟩
    · rw [Table.get?_insert, if_pos rfl]
    · exact (Codec.restores_root hstorable hm).read?
  · exact (h.insert_other hq _).mono hnm

/-! ### Operations -/

theorem keeps_removeClient {id : Uuid} (hid : id ≠ c) (hn : n < 2 ^ 64) :
    Op.Keeps (Enrolled n r c) (Clients.remove id) := by
  apply Op.Keeps.removeClient
  · apply Op.keeps_commit
    intro t y s h hs
    obtain ⟨-, rfl⟩ := Clients.detach_ok hs
    exact h.erase_client id
  · intro q
    apply Op.keeps_commit
    intro t v s h hs
    rcases Clients.leave_ok hs with rfl | ⟨old, hold, rfl⟩
    · exact h
    · apply h.rewrite le_rfl hn hold
      intro _ hstorable hin
      refine ⟨{ hstorable with size := ?_ }, OrderedSet.mem_erase.2 ⟨hin, hid.symm⟩⟩
      exact (OrderedSet.length_without_le _ _).trans hstorable.size

theorem keeps_setPassword {secrets : PasswordScheme} (hs : secrets.Bounded) {password : String}
    {salt : Bytes} (hpassword : Held password) (hsalt : salt.length = 16) (hn : n < 2 ^ 64) :
    Op.Keeps (Enrolled n r c) (Roots.setPassword secrets q password salt) := by
  unfold Roots.setPassword
  split
  · exact Op.keeps_fail _
  · rename_i kept hkept
    apply Op.keeps_commit
    intro t v s h hdone
    obtain ⟨old, _, hrequire, hdone⟩ := Txn.bind_eq_ok_iff.1 hdone
    obtain ⟨hold, rfl⟩ := Txn.require_eq_ok_iff.1 hrequire
    obtain ⟨_, _, hput, hdone⟩ := Txn.bind_eq_ok_iff.1 hdone
    obtain rfl := Txn.put_eq_ok_iff.1 hput
    obtain ⟨-, rfl⟩ := Txn.pure_eq_ok_iff.1 hdone
    apply h.rewrite le_rfl hn hold
    intro _ hstorable hin
    exact ⟨{ hstorable with passwordHash := hs salt password kept hsalt hpassword hkept }, hin⟩

theorem enroll_client {m : Nat} {id : Uuid} {y : Client} {x z : Root} {fresh : Bool}
    (h : Enrolled m r c t)
    (hs : (if fresh = true then do Txn.put Codec.client (.client id) y; pure x
      else pure x : Txn Root) t = .ok (z, u)) : Enrolled m r c u := by
  split at hs
  · obtain ⟨_, _, hput, hs⟩ := Txn.bind_eq_ok_iff.1 hs
    obtain rfl := Txn.put_eq_ok_iff.1 hput
    obtain ⟨-, rfl⟩ := Txn.pure_eq_ok_iff.1 hs
    exact h.insert_client id _
  · obtain ⟨-, rfl⟩ := Txn.pure_eq_ok_iff.1 hs
    exact h

/-- The root may have one member more. -/
theorem enroll {id : Uuid} {kept : String} {x : Root} (h : Enrolled n r c t) (hn : n + 1 < 2 ^ 64)
    (hs : Roots.enroll q id kept t = .ok (x, u)) : Enrolled (n + 1) r c u := by
  unfold Roots.enroll at hs
  obtain ⟨old, _, hrequire, hs⟩ := Txn.bind_eq_ok_iff.1 hs
  obtain ⟨hold, rfl⟩ := Txn.require_eq_ok_iff.1 hrequire
  split at hs
  · obtain ⟨_, _, habort, -⟩ := Txn.bind_eq_ok_iff.1 hs
    exact absurd habort Txn.abort_ne_ok
  · obtain ⟨y, _, hrequire, hs⟩ := Txn.bind_eq_ok_iff.1 hs
    obtain ⟨-, rfl⟩ := Txn.require_eq_ok_iff.1 hrequire
    split at hs
    · obtain ⟨_, _, hput, hs⟩ := Txn.bind_eq_ok_iff.1 hs
      obtain rfl := Txn.put_eq_ok_iff.1 hput
      refine enroll_client (h.rewrite (Nat.le_succ n) hn hold ?_) hs
      intro _ hstorable hin
      refine ⟨{ hstorable with size := ?_ }, OrderedSet.mem_insert.2 (Or.inr hin)⟩
      exact (OrderedSet.length_insert_le _ _).trans (Nat.succ_le_succ hstorable.size)
    · exact enroll_client (h.mono (Nat.le_succ n)) hs

theorem join {secrets : PasswordScheme} {id : Uuid} {password : String} (h : Enrolled n r c t)
    (hn : n + 1 < 2 ^ 64) :
    Enrolled (n + 1) r c ((Roots.join secrets q id password).outcome t).2 := by
  have hsame : Enrolled (n + 1) r c t := h.mono (Nat.le_succ n)
  have hread : (Roots.get q).outcome t = (((Roots.get q) t).answer, t) := rfl
  unfold Roots.join
  rw [Op.outcome_bind, hread]
  cases (Roots.get q t).answer with
  | error e => exact hsame
  | ok x =>
    dsimp only
    split
    · exact hsame
    · exact hsame
    · cases hs : Roots.enroll q id x.passwordHash t with
      | error e =>
        rw [Op.outcome_commit_error hs]
        exact hsame
      | ok v =>
        rw [Op.outcome_commit_ok hs]
        exact h.enroll hn hs

theorem keeps_removeRoot (hq : q ≠ r) : Op.Keeps (Enrolled n r c) (Roots.remove q batch) := by
  have hfiles {x : Op Purged} (hx : ∀ t, Op.Keeps (SameRegistry t) x) : Op.Keeps (Enrolled n r c) x :=
    fun t h s hs => h.sameRegistry (hx t t (.refl t) s hs)
  apply RegistryWrite.keeps_removeRoot
  · intro t u hs h
    cases hs with
    | client id y => exact h.insert_client id _
    | noClient id => exact h.erase_client id
    | root => exact h.insert_other hq _
  · intro t h
    apply h.congr
    have hmarker : (Key.root r).bytes ≠ (Key.marker q none).bytes := by simp [Key.root_bytes_inj]
    rw [Roots.get?_detached hmarker, Table.get?_erase, if_neg]
    intro heq
    exact hq (Key.root.inj (Key.root_bytes_inj.1 heq))
  · intro _ _ _
    exact hfiles fun t => SameRegistry.keeps_purgeRoot q batch

/-! ### Runs -/

theorem serve {s : Session} {q : Call} (h : Enrolled n r c s.records) (he : s.engine.Storable)
    (hq : q.Storable) (hkeeps : q.KeepsMember r c) (hn : n + 1 < 2 ^ 64) :
    Enrolled (n + 1) r c (s.serve q).2.records := by
  have hnow : n < 2 ^ 64 := (Nat.lt_succ_self n).trans hn
  have hmore {t : Records} (h : Enrolled n r c t) : Enrolled (n + 1) r c t := h.mono (Nat.le_succ n)
  have hfiles {t : Records} (hs : SameRegistry s.records t) : Enrolled (n + 1) r c t :=
    hmore (h.sameRegistry hs)
  cases q with
  | registerClient id address now => exact hmore (h.insert_client id _)
  | removeClient id => exact hmore ((keeps_removeClient hkeeps hnow).final h)
  | removeAllClients => exact hkeeps.elim
  | registerRoot q owner password salt now =>
    apply hmore
    apply (RegistryWrite.keeps_registerRoot _ _ owner password salt now).final h
    intro t x _ hfree _ h
    apply h.insert_other
    rintro rfl
    rw [h.has_root] at hfree
    contradiction
  | joinRoot q id password => exact h.join hn
  | setPassword q password salt =>
    exact hmore ((keeps_setPassword he.secrets hq.1 hq.2 hnow).final h)
  | resetPassword q random salt =>
    exact hmore (((keeps_setPassword he.secrets (he.held_reset random) hq hnow).bind
      fun _ => Op.keeps_pure _).final h)
  | observe o now => exact hfiles (SameRegistry.observe o now s.records)
  | recordEvent o now => exact hfiles (SameRegistry.attempt _ now s.records)
  | removeFile q p => exact hfiles ((SameRegistry.keeps_removeFile q p _).final (.refl _))
  | removeAllFiles scope =>
    exact hfiles ((SameRegistry.keeps_removeAllFiles scope _).final (.refl _))
  | removeRoot q => exact hmore ((keeps_removeRoot hkeeps).final h)
  | removeAllRoots => exact hkeeps.elim
  | sweepOrphans => exact hfiles ((SameRegistry.keeps_orphans _).final (.refl _))
  | putContent data => exact hmore h
  | removeContent hash => exact hmore h
  | restart config => exact hfiles (Roster.StoredIn.serve_restart s config)

theorem run {s : Session} {qs : List Call} (h : Enrolled n r c s.records) (he : s.engine.Storable)
    (hqs : ∀ q ∈ qs, q.Storable ∧ q.KeepsMember r c) (hn : n + qs.length < 2 ^ 64) :
    Enrolled (n + qs.length) r c (s.run qs).records := by
  induction qs generalizing s n with
  | nil => exact h
  | cons q qs ih =>
    obtain ⟨⟨hq, hkeeps⟩, hrest⟩ := List.forall_mem_cons.1 hqs
    rw [List.length_cons] at hn ⊢
    have hstep := h.serve he hq hkeeps (by omega)
    rw [← Nat.add_assoc, Nat.add_right_comm]
    exact ih hstep (he.serve hq) hrest (by omega)

end Enrolled

end SyncLedger
