/-
  SyncLedger/Proofs/Invariants.lean
  =================================
  **What every call keeps.**  A property of tables that the single steps keep is kept by whatever is
  served (`Session.keeps_serve`).  The steps are the writes of the registry, the removals, the sweep
  and the observation that a call makes; one that says nothing of markers and passes to tables with
  fewer records is kept by removals and sweeps anyway (`Hereditary`).
-/
import SyncLedger.Proofs.Sessions

namespace SyncLedger

variable {P : Records → Prop} {t u : Records} {k : Bytes} {batch : Nat}

/-- A property that cannot be lost by removing records or by leaving markers. -/
structure Hereditary (P : Records → Prop) : Prop where
  sub : ∀ {t s : Records}, s.Sub t → P t → P s
  marker : ∀ {t : Records} r p b, P t → P (t.insert (Key.marker r p).bytes b)

namespace Hereditary

theorem keeps_purge (h : Hereditary P) (pre : Bytes) : Op.Keeps P (Op.purge pre batch) := by
  intro t ht s hs
  exact h.sub (sub_of_mem_purge hs) ht

theorem keeps_drop (h : Hereditary P) (k : Key) : Op.Keeps P (Op.drop k) :=
  .drop fun t ht => h.sub (Table.sub_erase t _) ht

theorem keeps_removeFile (h : Hereditary P) (r p : String) :
    Op.Keeps P (Files.remove r p batch) := by
  apply Op.Keeps.removeFile
  · intro t ht
    exact h.marker r (some p) _ (h.sub (Table.sub_erase _ _) ht)
  · intro _ _ _
    exact ⟨h.keeps_purge _, h.keeps_drop _⟩

theorem keeps_purgeRoot (h : Hereditary P) (r : String) : Op.Keeps P (Roots.purge r batch) :=
  .purgeRoot (h.keeps_purge _) (h.keeps_purge _) (h.keeps_drop _)

theorem keeps_removeRoot (h : Hereditary P) {r : String}
    (hregistry : ∀ t s, RegistryWrite r t s → P t → P s) :
    Op.Keeps P (Roots.remove r batch) := by
  apply RegistryWrite.keeps_removeRoot hregistry
  · intro t ht
    exact h.marker r none _ (h.sub (Table.sub_erase _ _) ht)
  · intro _ _ _
    exact h.keeps_purgeRoot r

theorem keeps_orphans (h : Hereditary P) : Op.Keeps P (Sweep.orphans batch) := by
  apply Op.Keeps.orphans
  · intro r p
    exact .reserve fun _ _ ht => h.marker r p _ ht
  · intro r _ _ _
    exact h.keeps_purgeRoot r
  · intro r p _ _ _
    exact ⟨h.keeps_purge _, h.keeps_drop _⟩

theorem keeps_pending (h : Hereditary P) : Op.Keeps P (Sweep.pending batch) := by
  apply Op.Keeps.pending
  · intro r
    exact h.keeps_purgeRoot r
  · intro r p
    exact h.keeps_purge _
  · intro k _ t ht
    exact h.sub (Table.sub_erase t k) ht

end Hereditary

/-! ### Files in place -/

/-- Every file record that can be read stands under the key of its own root and path. -/
def FilesInPlace (t : Records) : Prop :=
  ∀ k f, Key.files <+: k → t.fetch Codec.file k = .ok (some f) → k = (Key.file f.root f.path).bytes

namespace FilesInPlace

theorem sub (h : FilesInPlace t) (hs : u.Sub t) : FilesInPlace u := by
  intro k f hk hf
  obtain ⟨b, hb, hread⟩ := Table.fetch_eq_some_iff.1 hf
  exact h k f hk (Table.fetch_eq_some_iff.2 ⟨b, hs k b hb, hread⟩)

theorem insert (h : FilesInPlace t) {b : Bytes}
    (hplace : Key.files <+: k → ∀ f, Codec.file.read? b = some f →
      k = (Key.file f.root f.path).bytes) : FilesInPlace (t.insert k b) := by
  intro l f hl hf
  by_cases hlk : l = k
  · subst hlk
    obtain ⟨c, hc, hread⟩ := Table.fetch_eq_some_iff.1 hf
    rw [Table.get?_insert, if_pos rfl] at hc
    obtain rfl := Option.some.inj hc
    exact hplace hl f hread
  · rw [Table.fetch_congr (t := t) (by simp [hlk])] at hf
    exact h l f hl hf

theorem hereditary : Hereditary FilesInPlace where
  sub hs h := h.sub hs
  marker r p b h := by
    apply h.insert
    intro hk
    obtain ⟨_, _, hfile⟩ := Key.files_prefix_iff.1 hk
    contradiction

end FilesInPlace

/-! ### Calls -/

/-- A call keeps what its steps keep. -/
theorem Session.keeps_serve {s : Session} {q : Call}
    (hregistry : ∀ r t u, RegistryWrite r t u → P t → P u)
    (hroot : ∀ r t (x : Root), x.path = r → t.has (.root r) = false →
      t.has (.marker r none) = false → P t →
      P (t.insert (Key.root r).bytes (Codec.root.encode x)))
    (hremoveRoot : ∀ r, Op.Keeps P (Roots.remove r s.engine.batch))
    (hremoveFile : ∀ r p, Op.Keeps P (Files.remove r p s.engine.batch))
    (hsweep : Op.Keeps P (Sweep.orphans s.engine.batch))
    (hobserve : ∀ o now, q = .observe o now ∨ q = .recordEvent o now →
      ∀ stamp, Op.Keeps P (Files.observe { o with stamp } now))
    (hrestart : ∀ c, q = .restart c → ∀ e : Engine, Op.Keeps P e.recover)
    (h : P s.records) : P (s.serve q).2.records := by
  cases q with
  | registerClient id address now =>
    exact (RegistryWrite.keeps_registerClient (hregistry "") id _ address now).final h
  | removeClient id => exact (RegistryWrite.keeps_removeClient hregistry id).final h
  | removeAllClients => exact (RegistryWrite.keeps_removeAllClients hregistry).final h
  | registerRoot r owner password salt now =>
    exact (RegistryWrite.keeps_registerRoot (hroot r) _ owner password salt now).final h
  | joinRoot r id password => exact (RegistryWrite.keeps_join (hregistry r) _ id password).final h
  | setPassword r password salt =>
    exact (RegistryWrite.keeps_setPassword (hregistry r) _ password salt).final h
  | resetPassword r random salt =>
    exact (RegistryWrite.keeps_resetPassword (hregistry r) _ _ _ salt).final h
  | observe o now => exact (hobserve o now (Or.inl rfl) o.stamp).final h
  | recordEvent o now =>
    exact (Op.Keeps.attempts (hobserve o now (Or.inr rfl)) _ ⟨o.stamp, rfl⟩).final h
  | removeFile r p => exact (hremoveFile r p).final h
  | removeAllFiles scope =>
    have hcascade : Op.Keeps P (Files.removeAll scope s.engine.batch) :=
      .removeAllFiles fun _ _ _ _ f _ => hremoveFile f.root f.path
    exact hcascade.final h
  | removeRoot r => exact (hremoveRoot r).final h
  | removeAllRoots => exact (Op.Keeps.removeAllRoots hremoveRoot).final h
  | sweepOrphans => exact hsweep.final h
  | putContent data => exact h
  | removeContent hash => exact h
  | restart c =>
    simp only [serve]
    split
    · rename_i engine db hopen
      obtain ⟨-, rfl⟩ := Engine.openOver_ok hopen
      exact (hrestart c rfl engine).final h
    · exact h

end SyncLedger
