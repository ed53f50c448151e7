/-
  SyncLedger/Proofs/Frames.lean
  =============================
  **What leaves the registry alone.**  Files, versions and markers stand under marks of their own.
  So no observation, no removal of files, no sweep and no recovery writes a client or a root
  record, whatever the names are and whether it succeeds or not (`SameRegistry`).
-/
import SyncLedger.Proofs.Cascades
import SyncLedger.Proofs.KeyReading
import SyncLedger.Proofs.Removals

namespace SyncLedger

variable {t s u : Records} {k p : Bytes}

/-- A key that is neither a client's nor a root's. -/
def Key.Outside (k : Bytes) : Prop := ¬ Key.clients <+: k ∧ ¬ Key.roots <+: k

namespace Key

theorem outside_of_files (h : files <+: k) : Outside k :=
  ⟨fun hc => absurd (mark_unique h hc rfl) (by decide),
    fun hr => absurd (mark_unique h hr rfl) (by decide)⟩

theorem outside_of_versions (h : versions <+: k) : Outside k :=
  ⟨fun hc => absurd (mark_unique h hc rfl) (by decide),
    fun hr => absurd (mark_unique h hr rfl) (by decide)⟩

theorem outside_of_markers (h : markers <+: k) : Outside k :=
  ⟨fun hc => absurd (mark_unique h hc rfl) (by decide),
    fun hr => absurd (mark_unique h hr rfl) (by decide)⟩

theorem outside_file (r p : String) : Outside (Key.file r p).bytes :=
  outside_of_files (files_prefix_iff.2 ⟨r, p, rfl⟩)

theorem outside_version (r p : String) (ts : UInt64) : Outside (Key.version r p ts).bytes :=
  outside_of_versions (versions_prefix_iff.2 ⟨r, p, ts, rfl⟩)

theorem outside_marker (r : String) (p : Option String) : Outside (Key.marker r p).bytes :=
  outside_of_markers (markers_prefix_iff.2 ⟨r, p, rfl⟩)

theorem outside_of_filesOf {r : String} (h : filesOf r <+: k) : Outside k :=
  outside_of_files ((List.prefix_append _ _).trans h)

theorem outside_of_versionsOf {r : String} (h : versionsOf r <+: k) : Outside k :=
  outside_of_versions ((List.prefix_append _ _).trans h)

theorem outside_of_versionsAt {r p : String} (h : versionsAt r p <+: k) : Outside k :=
  outside_of_versions (versions_prefix_versionsAt.trans h)

end Key

/-- The second table has the client and root records of the first. -/
def SameRegistry (t s : Records) : Prop :=
  ∀ k, Key.clients <+: k ∨ Key.roots <+: k → s.get? k = t.get? k

namespace SameRegistry

theorem refl (t : Records) : SameRegistry t t := fun _ _ => rfl

theorem insert (h : SameRegistry t s) (hk : Key.Outside k) (b : Bytes) :
    SameRegistry t (s.insert k b) := by
  intro l hl
  have hne : l ≠ k := by
    rintro rfl
    exact hl.elim hk.1 hk.2
  rw [Table.get?_insert, if_neg hne]
  exact h l hl

theorem erase (h : SameRegistry t s) (hk : Key.Outside k) : SameRegistry t (s.erase k) := by
  intro l hl
  have hne : l ≠ k := by
    rintro rfl
    exact hl.elim hk.1 hk.2
  rw [Table.get?_erase, if_neg hne]
  exact h l hl

/-! ### Purges -/

theorem keeps_purge (hp : ∀ k, p <+: k → Key.Outside k) (batch : Nat) :
    Op.Keeps (SameRegistry t) (Op.purge p batch) := by
  intro s hs u hu k hk
  have hfree : ¬ p <+: k := fun hpre => hk.elim (hp k hpre).1 (hp k hpre).2
  rw [get?_of_mem_purge hu hfree]
  exact hs k hk

theorem keeps_drop {key : Key} (hk : Key.Outside key.bytes) :
    Op.Keeps (SameRegistry t) (Op.drop key) :=
  .drop fun _ hs => hs.erase hk

theorem keeps_purgeRoot (r : String) (batch : Nat) :
    Op.Keeps (SameRegistry t) (Roots.purge r batch) := by
  apply Op.Keeps.purgeRoot
  · exact keeps_purge (fun _ => Key.outside_of_filesOf) batch
  · exact keeps_purge (fun _ => Key.outside_of_versionsOf) batch
  · exact keeps_drop (Key.outside_marker r none)

theorem keeps_purgePath (r p : String) (batch : Nat) :
    Op.Keeps (SameRegistry t) (History.purge r p batch) :=
  keeps_purge (fun _ => Key.outside_of_versionsAt) batch

/-! ### Files -/

theorem reconcile {o : Observation} {now : Instant} {d : Decision}
    (h : Files.reconcile o now t = .ok (d, s)) : SameRegistry t s := by
  apply Files.reconcile_writes h (refl t)
  · intro u v hu
    exact hu.insert (Key.outside_version _ _ _) _
  · intro u ts hu
    exact hu.insert (Key.outside_file _ _) _
  · intro f _
    exact (refl t).insert (Key.outside_file _ _) _
  · intro p f _ _ _
    constructor
    · intro u v hu
      exact hu.insert (Key.outside_version _ _ _) _
    · intro u ts hu
      exact hu.insert (Key.outside_file _ _) _

theorem observe (o : Observation) (now : Instant) (t : Records) :
    SameRegistry t ((Files.observe o now).outcome t).2 := by
  rw [Attempt.observe_outcome]
  cases h : Files.reconcile o now t with
  | error e => exact refl t
  | ok r => exact reconcile h

theorem attempt (a : Attempt) (now : Instant) (t : Records) :
    SameRegistry t ((a.run now).outcome t).2 := by
  rcases a.run_cases now t with ⟨e, he⟩ | ⟨stamp, d, s, hd, hrun⟩
  · rw [he]
    exact refl t
  · rw [hrun]
    exact reconcile hd

theorem keeps_removeFile (r p : String) (batch : Nat) :
    Op.Keeps (SameRegistry t) (Files.remove r p batch) := by
  have hmarker := Key.outside_marker r (some p)
  apply Op.Keeps.removeFile
  · intro s hs
    exact (hs.erase (Key.outside_file r p)).insert hmarker _
  · intro s _ _
    exact ⟨keeps_purgePath r p batch, keeps_drop hmarker⟩

theorem keeps_removeAllFiles (scope : Scope) (batch : Nat) :
    Op.Keeps (SameRegistry t) (Files.removeAll scope batch) :=
  .removeAllFiles fun _ _ _ _ f _ => keeps_removeFile f.root f.path batch

/-! ### Sweeps -/

theorem keeps_pending (batch : Nat) : Op.Keeps (SameRegistry t) (Sweep.pending batch) := by
  apply Op.Keeps.pending
  · intro r
    exact keeps_purgeRoot r batch
  · intro r p
    exact keeps_purgePath r p batch
  · intro k hk s hs
    exact hs.erase (Key.outside_of_markers hk)

theorem keeps_orphans (batch : Nat) : Op.Keeps (SameRegistry t) (Sweep.orphans batch) := by
  apply Op.Keeps.orphans
  · intro r p
    exact .reserve fun s _ hs => hs.insert (Key.outside_marker r p) _
  · intro r _ _ _
    exact keeps_purgeRoot r batch
  · intro r p _ _ _
    exact ⟨keeps_purgePath r p batch, keeps_drop (Key.outside_marker r (some p))⟩

end SameRegistry

end SyncLedger
