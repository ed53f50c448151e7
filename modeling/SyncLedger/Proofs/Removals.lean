/-
  SyncLedger/Proofs/Removals.lean
  ===============================
  **What a removal leaves.**  A removal that is not interrupted leaves the table without the
  records of what it removes (`Files.removed`, `Roots.removed`), whatever the size of its
  batches, and where a table stores a journal it forgets exactly the histories of the paths
  removed.  One that misses its object changes nothing.

  The cascades over many files or roots are inductions over the list that was read at their
  beginning.  A cascade over files meets no other failure than a file that is gone
  (`StoredIn.removeAllFiles`).  A cascade over roots can be stopped by a record that cannot be
  read; what it forgets are then the roots that it has reached (`StoredIn.removeAllRoots`).
-/
import SyncLedger.Registry.Roots
import SyncLedger.Index.Files
import SyncLedger.Proofs.Journal

namespace SyncLedger

variable {j : Journal} {t s : Records} {r p : String}

/-- Whether a path is in scope. -/
def Scope.covers : Scope → String → String → Bool
  | .all, _, _ => true
  | .root r, q, _ => decide (q = r)
  | .path r p, q, o => decide (q = r ∧ o = p)

/-- Whether a key is of a path: its file, a version of it, or the marker of its removal. -/
def Key.isOfPath (r p : String) : Key → Bool
  | .file q o => decide (q = r ∧ o = p)
  | .version q o _ => decide (q = r ∧ o = p)
  | .marker q (some o) => decide (q = r ∧ o = p)
  | _ => false

/-- Whether a key is of a root: the root itself, its files and versions, or the marker of its
    removal. -/
def Key.isOfRoot (r : String) : Key → Bool
  | .root q => decide (q = r)
  | .file q _ => decide (q = r)
  | .version q _ _ => decide (q = r)
  | .marker q none => decide (q = r)
  | _ => false

/-! ### Removing a file -/

namespace Files

/-- The table without a file, its versions and the marker of its removal. -/
def removed (r p : String) (t : Records) : Records :=
  ((t.erase (Key.file r p).bytes).eraseUnder (Key.versionsAt r p)).erase
    (Key.marker r (some p)).bytes

/-- The table while the versions of a file are purged. -/
def detached (r p : String) (t : Records) : Records :=
  (t.erase (Key.file r p).bytes).insert (Key.marker r (some p)).bytes
    (Codec.marker.encode ⟨r, some p⟩)

theorem removed_sub (r p : String) (t : Records) : (removed r p t).Sub t :=
  (Table.sub_erase _ _).trans ((Table.sub_eraseUnder _ _).trans (Table.sub_erase _ _))

theorem detach_eq (hroot : t.has (.root r) = true) (hfile : t.has (.file r p) = true) :
    detach r p t = .ok ((), detached r p t) := by
  unfold detach
  rw [Txn.bind_of_ok (Txn.has_eq_ok_iff.2 ⟨hroot, rfl⟩)]
  exact Txn.bind_of_ok (Txn.delete_eq_ok_iff.2 ⟨hfile, rfl⟩)

/-- Whatever is missing, the removal of a file fails with an ordinary miss. -/
theorem detach_missing (h : t.has (.root r) = false ∨ t.has (.file r p) = false) :
    ∃ m, detach r p t = .error (.notFound m) := by
  unfold detach
  cases hroot : t.has (.root r) with
  | false =>
    rw [Txn.bind_of_ok (Txn.has_eq_ok_iff.2 ⟨hroot, rfl⟩)]
    exact ⟨.root r, rfl⟩
  | true =>
    have hfile := h.resolve_left (by simp [hroot])
    rw [Txn.bind_of_ok (Txn.has_eq_ok_iff.2 ⟨hroot, rfl⟩)]
    refine ⟨.file r p, ?_⟩
    exact Txn.bind_of_ok (Txn.delete_eq_ok_iff.2 ⟨hfile, rfl⟩)

/-- What is taken out of use was there, a file of a registered root. -/
theorem detach_ok {u : Unit} (h : detach r p t = .ok (u, s)) :
    t.has (.root r) = true ∧ t.has (.file r p) = true ∧ s = detached r p t := by
  cases hthere : t.has (.root r) && t.has (.file r p) with
  | false =>
    obtain ⟨m, hm⟩ := detach_missing (Bool.and_eq_false_iff.1 hthere)
    rw [hm] at h
    contradiction
  | true =>
    rw [Bool.and_eq_true] at hthere
    rw [detach_eq hthere.1 hthere.2] at h
    obtain ⟨-, rfl⟩ := Prod.ext_iff.1 (Except.ok.inj h)
    exact ⟨hthere.1, hthere.2, rfl⟩

theorem get?_detached {k : Bytes} (hmarker : k ≠ (Key.marker r (some p)).bytes) :
    (detached r p t).get? k = (t.erase (Key.file r p).bytes).get? k := by
  rw [detached, Table.get?_insert, if_neg hmarker]

/-- Purging what was detached, and then dropping its marker, completes the removal. -/
theorem removed_of_detached :
    ((detached r p t).eraseUnder (Key.versionsAt r p)).erase (Key.marker r (some p)).bytes
      = removed r p t := by
  apply Table.ext
  intro k
  by_cases hmarker : k = (Key.marker r (some p)).bytes
  · simp [removed, hmarker]
  · simp only [removed, Table.get?_erase, Table.get?_eraseUnder, get?_detached hmarker]

theorem under_detached :
    (detached r p t).under (Key.versionsAt r p) = t.under (Key.versionsAt r p) := by
  apply Table.under_congr
  intro k hk
  have hversion : Key.versions <+: k := Key.versions_prefix_versionsAt.trans hk
  have hmarker : k ≠ (Key.marker r (some p)).bytes := by
    rintro rfl
    simpa using Key.versions_prefix_iff.1 hversion
  have hfile : k ≠ (Key.file r p).bytes := by
    rintro rfl
    simpa using Key.versions_prefix_iff.1 hversion
  rw [get?_detached hmarker, Table.get?_erase, if_neg hfile]

theorem outcome_remove (hroot : t.has (.root r) = true) (hfile : t.has (.file r p) = true)
    (batch : Nat) :
    (remove r p batch).outcome t
      = (.ok (t.under (Key.versionsAt r p)).length, removed r p t) := by
  have hpurge := outcome_purge (Key.versionsAt r p) batch (detached r p t)
  rw [under_detached] at hpurge
  unfold remove History.purge
  rw [Op.outcome_bind_ok (Op.outcome_commit_ok (detach_eq hroot hfile)),
    Op.outcome_bind_ok hpurge, Op.outcome_bind_ok (outcome_drop _ _), Op.outcome_pure,
    removed_of_detached]

theorem outcome_remove_missing (h : t.has (.root r) = false ∨ t.has (.file r p) = false)
    (batch : Nat) :
    ∃ m, (remove r p batch).outcome t = (.error (.notFound m), t) := by
  obtain ⟨m, hm⟩ := detach_missing h
  exact ⟨m, Op.outcome_bind_error (Op.outcome_commit_error hm)⟩

theorem get?_removed (hr : Short r) (hp : Short p) {key : Key} (hkey : key.Fits) :
    (removed r p t).get? key.bytes = if key.isOfPath r p then none else t.get? key.bytes := by
  have hfile : (Key.file r p).Fits := ⟨hr, hp⟩
  have hmarker : (Key.marker r (some p)).Fits := ⟨hr, by simpa using hp⟩
  have hof : key.isOfPath r p = true ↔
      key = .marker r (some p) ∨ Key.versionsAt r p <+: key.bytes ∨ key = .file r p := by
    rw [Key.versionsAt_prefix_iff hr hp hkey]
    cases key with
    | client | root | file | version => simp [Key.isOfPath]
    | marker q o => cases o <;> simp [Key.isOfPath]
  simp only [removed, Table.get?_erase, Table.get?_eraseUnder, Key.bytes_inj hkey hfile,
    Key.bytes_inj hkey hmarker, hof, ite_or]

end Files

namespace Journal.StoredIn

theorem removed_file (h : j.StoredIn t) (hr : Short r) (hp : Short p) :
    (j.erase (Scope.path r p).covers).StoredIn (Files.removed r p t) := by
  refine h.erase (Files.removed_sub r p t) ?_ ?_
  · intro q o hq ho hgone
    obtain ⟨rfl, rfl⟩ : q = r ∧ o = p := by simpa [Scope.covers] using hgone
    have hfile : (Key.file q o).Fits := ⟨hr, hp⟩
    have hversion (ts : UInt64) : (Key.version q o ts).Fits := ⟨hr, hp⟩
    constructor
    · rw [Files.get?_removed hr hp hfile]
      simp [Key.isOfPath]
    · intro ts
      rw [Files.get?_removed hr hp (hversion ts)]
      simp [Key.isOfPath]
  · intro q o hq ho hkept
    have hne : ¬ (q = r ∧ o = p) := by simpa [Scope.covers] using hkept
    have hfile : (Key.file q o).Fits := ⟨hq, ho⟩
    have hversion (ts : UInt64) : (Key.version q o ts).Fits := ⟨hq, ho⟩
    have hroot : (Key.root q).Fits := hq
    refine ⟨?_, ?_, ?_⟩
    · rw [Files.get?_removed hr hp hfile]
      simp [Key.isOfPath, hne]
    · intro ts
      rw [Files.get?_removed hr hp (hversion ts)]
      simp [Key.isOfPath, hne]
    · intro hthere
      rw [Table.has_congr (Files.get?_removed hr hp hroot)]
      exact hthere

/-- The history of a path without a file record, or of an unregistered root, is empty. -/
theorem eq_nil_of_missing (h : j.StoredIn t) (hr : Short r) (hp : Short p)
    (hmissing : t.has (.root r) = false ∨ t.has (.file r p) = false) : j r p = [] := by
  by_contra hne
  rcases hmissing with hroot | hfile
  · rw [h.rooted r p hr hp hne] at hroot
    contradiction
  · rw [(h.has_file hr hp).2 hne] at hfile
    contradiction

/-- A removal answers with the length of the history, and forgets it. -/
theorem removeFile (h : j.StoredIn t) (hr : Short r) (hp : Short p) (batch : Nat) :
    (∃ m, (Files.remove r p batch).outcome t = (.error (.notFound m), t) ∧ j r p = []) ∨
      ∃ s, (Files.remove r p batch).outcome t = (.ok (j r p).length, s) ∧
        (j.erase (Scope.path r p).covers).StoredIn s := by
  by_cases hthere : t.has (.root r) = true ∧ t.has (.file r p) = true
  · refine Or.inr ⟨Files.removed r p t, ?_, h.removed_file hr hp⟩
    rw [Files.outcome_remove hthere.1 hthere.2 batch, h.versions r p hr hp, List.length_map]
  · have hmissing : t.has (.root r) = false ∨ t.has (.file r p) = false := by
      rw [not_and_or] at hthere
      simpa using hthere
    obtain ⟨m, hm⟩ := Files.outcome_remove_missing hmissing batch
    exact Or.inl ⟨m, hm, h.eq_nil_of_missing hr hp hmissing⟩

end Journal.StoredIn

/-! ### Removing a root -/

namespace Roots

/-- The table without a root, its files and versions and the marker of its removal. -/
def removed (r : String) (t : Records) : Records :=
  (((t.erase (Key.root r).bytes).eraseUnder (Key.filesOf r)).eraseUnder (Key.versionsOf r)).erase
    (Key.marker r none).bytes

/-- The table while the files and versions of a root are purged; `t` is the table whose clients
    have forgotten the root. -/
def detached (r : String) (t : Records) : Records :=
  (t.erase (Key.root r).bytes).insert (Key.marker r none).bytes (Codec.marker.encode ⟨r, none⟩)

theorem removed_sub (r : String) (t : Records) : (removed r t).Sub t :=
  (Table.sub_erase _ _).trans ((Table.sub_eraseUnder _ _).trans
    ((Table.sub_eraseUnder _ _).trans (Table.sub_erase _ _)))

/-- Only clients forget a root. -/
theorem forgetBy_ok {ids : List Uuid} {u : Unit} (h : forgetBy r ids t = .ok (u, s)) :
    RegistryOnly t s ∧ ∀ q, s.get? (Key.root q).bytes = t.get? (Key.root q).bytes := by
  induction ids generalizing t with
  | nil =>
    obtain ⟨_, rfl⟩ := Txn.pure_eq_ok_iff.1 h
    exact ⟨.refl t, fun _ => rfl⟩
  | cons id ids ih =>
    unfold forgetBy at h
    obtain ⟨c, _, hfetch, h⟩ := Txn.bind_eq_ok_iff.1 h
    obtain ⟨_, rfl⟩ := Txn.fetch_eq_ok_iff.1 hfetch
    cases c with
    | none => exact ih h
    | some c =>
      simp only at h
      split at h
      · obtain ⟨_, _, hput, h⟩ := Txn.bind_eq_ok_iff.1 h
        obtain rfl := Txn.put_eq_ok_iff.1 hput
        obtain ⟨honly, hroots⟩ := ih h
        refine ⟨(RegistryOnly.insert_client t id _).trans honly, ?_⟩
        intro q
        rw [hroots, Table.get?_insert, if_neg (RegistryOnly.root_ne_client q id)]
      · exact ih h

theorem forgetBy_error {ids : List Uuid} {e : Error} (h : forgetBy r ids t = .error e) :
    e = .serialization none := by
  induction ids generalizing t with
  | nil => cases h
  | cons id ids ih =>
    unfold forgetBy at h
    cases hfetch : t.fetch Codec.client (Key.client id).bytes with
    | error err =>
      rw [Txn.bind_of_error (Txn.fetch_of_error hfetch)] at h
      rw [← Except.error.inj h]
      exact Table.fetch_eq_error hfetch
    | ok c =>
      rw [Txn.bind_of_ok (Txn.fetch_eq_ok_iff.2 ⟨hfetch, rfl⟩)] at h
      cases c with
      | none => exact ih h
      | some c =>
        simp only at h
        split at h
        · rw [Txn.bind_of_ok (v := ()) (Txn.put_eq_ok_iff.2 rfl)] at h
          exact ih h
        · exact ih h

/-- A root is taken out of use, or there is none, or a record that is needed cannot be read. -/
theorem detach_cases (r : String) (t : Records) :
    (∃ u, RegistryOnly t u ∧ (∀ q, u.get? (Key.root q).bytes = t.get? (Key.root q).bytes) ∧
        t.has (.root r) = true ∧ detach r t = .ok ((), detached r u)) ∨
      (t.has (.root r) = false ∧ detach r t = .error (.notFound (.root r))) ∨
      detach r t = .error (.serialization none) := by
  unfold detach
  cases hfetch : t.fetch Codec.root (Key.root r).bytes with
  | error e =>
    refine Or.inr (Or.inr ?_)
    rw [Txn.bind_of_error (Txn.require_of_error hfetch), Table.fetch_eq_error hfetch]
  | ok x =>
    cases x with
    | none =>
      refine Or.inr (Or.inl ⟨Table.has_eq_false_iff.2 (Table.fetch_eq_none_iff.1 hfetch), ?_⟩)
      exact Txn.bind_of_error (Txn.require_of_none hfetch)
    | some x =>
      obtain ⟨b, hb, _⟩ := Table.fetch_eq_some_iff.1 hfetch
      rw [Txn.bind_of_ok (Txn.require_eq_ok_iff.2 ⟨hfetch, rfl⟩)]
      cases hforget : forgetBy r x.members.toList t with
      | error e =>
        refine Or.inr (Or.inr ?_)
        rw [Txn.bind_of_error hforget, forgetBy_error hforget]
      | ok y =>
        obtain ⟨honly, hroots⟩ := forgetBy_ok hforget
        refine Or.inl ⟨y.2, honly, hroots, Table.has_iff.2 ⟨b, hb⟩, ?_⟩
        rw [Txn.bind_of_ok hforget]
        exact Txn.bind_of_ok (Txn.delete_eq_ok_iff.2 ⟨rfl, rfl⟩)

theorem get?_detached {k : Bytes} (hmarker : k ≠ (Key.marker r none).bytes) :
    (detached r t).get? k = (t.erase (Key.root r).bytes).get? k := by
  rw [detached, Table.get?_insert, if_neg hmarker]

theorem removed_of_detached :
    (((detached r t).eraseUnder (Key.filesOf r)).eraseUnder (Key.versionsOf r)).erase
      (Key.marker r none).bytes = removed r t := by
  apply Table.ext
  intro k
  by_cases hmarker : k = (Key.marker r none).bytes
  · simp [removed, hmarker]
  · simp only [removed, Table.get?_erase, Table.get?_eraseUnder, get?_detached hmarker]

/-- A purge answers with what it found and leaves nothing of it, nor a marker. -/
theorem outcome_purge (r : String) (batch : Nat) (t : Records) :
    (purge r batch).outcome t = (.ok ⟨(t.under (Key.filesOf r)).length,
        ((t.eraseUnder (Key.filesOf r)).under (Key.versionsOf r)).length⟩,
      ((t.eraseUnder (Key.filesOf r)).eraseUnder (Key.versionsOf r)).erase
        (Key.marker r none).bytes) := by
  unfold purge
  rw [Op.outcome_bind_ok (SyncLedger.outcome_purge _ _ _),
    Op.outcome_bind_ok (SyncLedger.outcome_purge _ _ _), Op.outcome_bind_ok (outcome_drop _ _),
    Op.outcome_pure]

theorem outcome_remove (h : detach r t = .ok ((), detached r s)) (batch : Nat) :
    ∃ n, (remove r batch).outcome t = (.ok n, removed r s) := by
  have hpurge := outcome_purge r batch (detached r s)
  rw [removed_of_detached] at hpurge
  exact ⟨_, (Op.outcome_bind_ok (Op.outcome_commit_ok h)).trans hpurge⟩

theorem get?_removed (hr : Short r) {key : Key} (hkey : key.Fits) :
    (removed r t).get? key.bytes = if key.isOfRoot r then none else t.get? key.bytes := by
  have hroot : (Key.root r).Fits := hr
  have hmarker : (Key.marker r none).Fits := ⟨hr, by simp⟩
  have hof : key.isOfRoot r = true ↔ key = .marker r none ∨ Key.versionsOf r <+: key.bytes ∨
      Key.filesOf r <+: key.bytes ∨ key = .root r := by
    rw [Key.versionsOf_prefix_iff hr hkey, Key.filesOf_prefix_iff hr hkey]
    cases key with
    | client | root | file | version => simp [Key.isOfRoot]
    | marker q o => cases o <;> simp [Key.isOfRoot]
  simp only [removed, Table.get?_erase, Table.get?_eraseUnder, Key.bytes_inj hkey hroot,
    Key.bytes_inj hkey hmarker, hof, ite_or]

end Roots

namespace Journal.StoredIn

theorem removed_root (h : j.StoredIn t) (hr : Short r) :
    (j.erase (Scope.root r).covers).StoredIn (Roots.removed r t) := by
  refine h.erase (Roots.removed_sub r t) ?_ ?_
  · intro q o hq ho hgone
    obtain rfl : q = r := by simpa [Scope.covers] using hgone
    have hfile : (Key.file q o).Fits := ⟨hq, ho⟩
    have hversion (ts : UInt64) : (Key.version q o ts).Fits := ⟨hq, ho⟩
    constructor
    · rw [Roots.get?_removed hr hfile]
      simp [Key.isOfRoot]
    · intro ts
      rw [Roots.get?_removed hr (hversion ts)]
      simp [Key.isOfRoot]
  · intro q o hq ho hkept
    have hne : q ≠ r := by simpa [Scope.covers] using hkept
    have hfile : (Key.file q o).Fits := ⟨hq, ho⟩
    have hversion (ts : UInt64) : (Key.version q o ts).Fits := ⟨hq, ho⟩
    have hroot : (Key.root q).Fits := hq
    refine ⟨?_, ?_, ?_⟩
    · rw [Roots.get?_removed hr hfile]
      simp [Key.isOfRoot, hne]
    · intro ts
      rw [Roots.get?_removed hr (hversion ts)]
      simp [Key.isOfRoot, hne]
    · intro hthere
      have hsame := Roots.get?_removed (t := t) hr hroot
      simp only [Key.isOfRoot, hne, decide_false, Bool.false_eq_true, if_false] at hsame
      rw [Table.has_congr hsame]
      exact hthere

/-- A removal of a root forgets the histories of its paths, or fails and changes nothing. -/
theorem removeRoot (h : j.StoredIn t) (r : String) (batch : Nat) :
    (∃ e, (Roots.remove r batch).outcome t = (.error e, t) ∧
        ((∃ m, e = .notFound m) → t.has (.root r) = false)) ∨
      ∃ n s, (Roots.remove r batch).outcome t = (.ok n, s) ∧
        (j.erase (Scope.root r).covers).StoredIn s ∧
        ∀ q, Short q → s.has (.root q) = (t.has (.root q) && !decide (q = r)) := by
  rcases Roots.detach_cases r t with ⟨u, honly, hroots, hthere, hok⟩ | ⟨hmissing, herr⟩ | herr
  · have hr := h.keyed.short_root hthere
    obtain ⟨n, hn⟩ := Roots.outcome_remove hok batch
    refine Or.inr ⟨n, _, hn, (h.registryOnly honly).removed_root hr, fun q hq => ?_⟩
    have hkey : (Key.root q).Fits := hq
    by_cases hqr : q = r
    · subst hqr
      simp [Table.has_eq_false_iff, Roots.get?_removed hr hkey, Key.isOfRoot]
    · have hsame := Roots.get?_removed (t := u) hr hkey
      simp only [Key.isOfRoot, hqr, decide_false, Bool.false_eq_true, if_false, hroots] at hsame
      simp [Table.has_congr hsame, hqr]
  · exact Or.inl ⟨_, Op.outcome_bind_error (Op.outcome_commit_error herr), fun _ => hmissing⟩
  · exact Or.inl ⟨_, Op.outcome_bind_error (Op.outcome_commit_error herr), by simp⟩

end Journal.StoredIn

/-! ### Cascades -/

theorem Journal.erase_erase (j : Journal) (gone gone' : String → String → Bool) :
    (j.erase gone).erase gone' = j.erase fun r p => gone r p || gone' r p := by
  funext r p
  by_cases h : gone r p = true
  · simp [Journal.erase, h]
  · simp [Journal.erase, h]

theorem Journal.erase_none (j : Journal) : (j.erase fun _ _ => false) = j := by
  funext r p
  simp [Journal.erase]

theorem Journal.erase_of_eq_nil {j : Journal} {gone : String → String → Bool}
    (h : ∀ r p, gone r p = true → j r p = []) : j.erase gone = j := by
  funext r p
  by_cases hgone : gone r p = true
  · simp [Journal.erase, hgone, h r p hgone]
  · simp [Journal.erase, hgone]

/-- The names of a scope are short. -/
def Scope.Fits : Scope → Prop
  | .all => True
  | .root r => Short r
  | .path r p => Short r ∧ Short p

/-- Whether a path is that of a file in a list. -/
def Files.lists (fs : List File) (r p : String) : Bool :=
  fs.any fun f => decide (f.root = r ∧ f.path = p)

namespace Journal.StoredIn

/-- A path with a history has a file record that can be read, and it names the path. -/
theorem fetch_of_ne_nil (h : j.StoredIn t) (hr : Short r) (hp : Short p) (hne : j r p ≠ []) :
    ∃ f, t.fetch Codec.file (Key.file r p).bytes = .ok (some f) := by
  obtain ⟨m, hm, hget⟩ := h.file r p hr hp
  cases hlast : (j r p).getLast? with
  | none => exact absurd (List.getLast?_eq_none_iff.1 hlast) hne
  | some v =>
    rw [hlast, Option.map_some] at hget
    have hv := List.mem_of_getLast? hlast
    have hfits := fits_fileAt ((h.history r p hr hp).fits v hv) hp hm
    exact ⟨_, Table.fetch_eq_some_iff.2 ⟨_, hget, (Codec.restores_file hfits).read?⟩⟩

theorem of_fetch_file (h : j.StoredIn t) (hr : Short r) (hp : Short p) {f : File}
    (hf : t.fetch Codec.file (Key.file r p).bytes = .ok (some f)) :
    f.root = r ∧ f.path = p ∧ j r p ≠ [] ∧ t.has (.root r) = true := by
  obtain ⟨v, m, hlast, _, rfl⟩ := h.fetch_file hr hp hf
  have hv := List.mem_of_getLast? hlast
  have hne : j r p ≠ [] := List.ne_nil_of_mem hv
  exact ⟨(h.history r p hr hp).root v hv, rfl, hne, h.rooted r p hr hp hne⟩

/-- The files under a prefix of file keys can all be read. -/
theorem listUnder (h : j.StoredIn t) {pre : Bytes} (hpre : Key.files <+: pre) :
    ∃ fs, (Files.listUnder pre).outcome t = (.ok fs, t) ∧ ∀ f, f ∈ fs ↔
      Short f.root ∧ Short f.path ∧ pre <+: (Key.file f.root f.path).bytes ∧
        t.fetch Codec.file (Key.file f.root f.path).bytes = .ok (some f) := by
  have hkey {k b : Bytes} (hk : pre <+: k) (hb : t.get? k = some b) :
      ∃ r p, Short r ∧ Short p ∧ (Key.file r p).bytes = k := by
    obtain ⟨key, hfits, rfl⟩ := h.keyed k b hb
    obtain ⟨r, p, rfl⟩ := Key.files_prefix_iff.1 (hpre.trans hk)
    exact ⟨r, p, hfits.1, hfits.2, rfl⟩
  have hread : ∀ e ∈ t.under pre, ∃ f, Codec.file.read? e.2 = some f := by
    intro e he
    obtain ⟨hk, hb⟩ := Table.mem_under.1 he
    obtain ⟨r, p, hr, hp, heq⟩ := hkey hk hb
    have hthere : t.has (.file r p) = true := Table.has_iff.2 ⟨e.2, heq ▸ hb⟩
    obtain ⟨f, hf⟩ := h.fetch_of_ne_nil hr hp ((h.has_file hr hp).1 hthere)
    obtain ⟨b, hb', hread⟩ := Table.fetch_eq_some_iff.1 hf
    rw [heq, hb, Option.some.injEq] at hb'
    exact ⟨f, hb' ▸ hread⟩
  obtain ⟨found, hfound⟩ := Table.exists_decodeAll hread
  have hscan : t.scan Codec.file pre = .ok found := hfound
  refine ⟨(found.map (·.2)).filter fun f => t.has (.root f.root), ?_, ?_⟩
  · simp [Files.listUnder, hscan]
  · intro f
    rw [List.mem_filter, List.mem_map]
    constructor
    · rintro ⟨⟨⟨k, g⟩, hg, rfl⟩, _⟩
      obtain ⟨hk, hf⟩ := (Table.mem_scan hscan).1 hg
      obtain ⟨b, hb, _⟩ := Table.fetch_eq_some_iff.1 hf
      obtain ⟨r, p, hr, hp, rfl⟩ := hkey hk hb
      obtain ⟨rfl, rfl, _⟩ := h.of_fetch_file hr hp hf
      exact ⟨hr, hp, hk, hf⟩
    · rintro ⟨hr, hp, hk, hf⟩
      exact ⟨⟨_, (Table.mem_scan hscan).2 ⟨hk, hf⟩, rfl⟩, (h.of_fetch_file hr hp hf).2.2.2⟩

theorem latest_missing (hmissing : t.has (.root r) = false ∨
    t.fetch Codec.file (Key.file r p).bytes = .ok none) :
    ∃ m, (Files.latest r p).outcome t = (.error (.notFound m), t) := by
  cases hroot : t.has (.root r) with
  | false =>
    refine ⟨.root r, ?_⟩
    simp only [Files.latest, Op.outcome_read, hroot]
    rfl
  | true =>
    have hnone := hmissing.resolve_left (by simp [hroot])
    refine ⟨.file r p, ?_⟩
    simp only [Files.latest, Op.outcome_read, hroot, hnone]
    rfl

theorem latest_there (hroot : t.has (.root r) = true) {f : File}
    (hf : t.fetch Codec.file (Key.file r p).bytes = .ok (some f)) :
    (Files.latest r p).outcome t = (.ok f, t) := by
  simp only [Files.latest, Op.outcome_read, hroot, hf]
  rfl

theorem list_path_of_latest {f : File} (h : (Files.latest r p).outcome t = (.ok f, t)) :
    (Files.list (.path r p)).outcome t = (.ok [f], t) :=
  Op.outcome_bind_ok (by rw [Op.outcome_attempt, h])

theorem list_path_of_missing {m : Missing}
    (h : (Files.latest r p).outcome t = (.error (.notFound m), t)) :
    (Files.list (.path r p)).outcome t = (.ok [], t) :=
  Op.outcome_bind_ok (by rw [Op.outcome_attempt, h])

/-- The listing of a scope has a file for every path in it with a history. -/
theorem listFiles (h : j.StoredIn t) {scope : Scope} (hscope : scope.Fits) :
    ∃ fs, (Files.list scope).outcome t = (.ok fs, t) ∧ (∀ f ∈ fs, Short f.root ∧ Short f.path) ∧
      ∀ r p, Short r → Short p → j r p ≠ [] → Files.lists fs r p = scope.covers r p := by
  have hunder {pre : Bytes} (hpre : Key.files <+: pre) (hcovers : ∀ r p, Short r → Short p →
      (pre <+: (Key.file r p).bytes ↔ scope.covers r p = true)) :
      ∃ fs, (Files.listUnder pre).outcome t = (.ok fs, t) ∧
        (∀ f ∈ fs, Short f.root ∧ Short f.path) ∧
        ∀ r p, Short r → Short p → j r p ≠ [] → Files.lists fs r p = scope.covers r p := by
    obtain ⟨fs, hfs, hmem⟩ := h.listUnder hpre
    refine ⟨fs, hfs, fun f hf => ⟨((hmem f).1 hf).1, ((hmem f).1 hf).2.1⟩, ?_⟩
    intro r p hr hp hne
    rw [Bool.eq_iff_iff, ← hcovers r p hr hp]
    simp only [Files.lists, List.any_eq_true, decide_eq_true_eq]
    constructor
    · rintro ⟨f, hf, rfl, rfl⟩
      exact ((hmem f).1 hf).2.2.1
    · intro hk
      obtain ⟨f, hf⟩ := h.fetch_of_ne_nil hr hp hne
      obtain ⟨rfl, rfl, _⟩ := h.of_fetch_file hr hp hf
      exact ⟨f, (hmem f).2 ⟨hr, hp, hk, hf⟩, rfl, rfl⟩
  cases scope with
  | all =>
    apply hunder (List.prefix_refl _)
    intro r p _ _
    simp [Scope.covers, Key.files_prefix_iff]
  | root q =>
    have hpre : Key.files <+: Key.filesOf q := List.prefix_append _ _
    apply hunder hpre
    intro r p hr hp
    have hkey : (Key.file r p).Fits := ⟨hr, hp⟩
    rw [Key.filesOf_prefix_iff hscope hkey]
    simp [Scope.covers]
  | path q o =>
    obtain ⟨hq, ho⟩ := hscope
    by_cases hnil : j q o = []
    · have hfile : t.fetch Codec.file (Key.file q o).bytes = .ok none := by
        rw [Table.fetch_eq_none_iff, ← Table.has_eq_false_iff]
        simpa [hnil] using h.has_file hq ho
      obtain ⟨m, hm⟩ := latest_missing (r := q) (Or.inr hfile)
      refine ⟨[], list_path_of_missing hm, by simp, ?_⟩
      intro r p _ _ hne
      have hother : ¬ (r = q ∧ p = o) := by
        rintro ⟨rfl, rfl⟩
        exact hne hnil
      simp [Files.lists, Scope.covers, hother]
    · obtain ⟨f, hf⟩ := h.fetch_of_ne_nil hq ho hnil
      obtain ⟨rfl, rfl, _, hroot⟩ := h.of_fetch_file hq ho hf
      refine ⟨[f], list_path_of_latest (latest_there hroot hf), by simpa using ⟨hq, ho⟩, ?_⟩
      intro r p _ _ _
      simp [Files.lists, Scope.covers, eq_comm]

/-- A cascade over files forgets the histories of all of them. -/
theorem removeFiles (h : j.StoredIn t) {fs : List File}
    (hfs : ∀ f ∈ fs, Short f.root ∧ Short f.path) (batch n : Nat) :
    ∃ m s, (Files.removeEach batch fs n).outcome t = (.ok m, s) ∧
      (j.erase (Files.lists fs)).StoredIn s := by
  -- the list was read before the first removal, so a file of it may be gone when its turn comes
  induction fs generalizing j t n with
  | nil => exact ⟨n, t, rfl, j.erase_none.symm ▸ h⟩
  | cons f fs ih =>
    obtain ⟨hr, hp⟩ := hfs f List.mem_cons_self
    have hrest (g : File) (hg : g ∈ fs) := hfs g (List.mem_cons_of_mem _ hg)
    have hlists : Files.lists (f :: fs) = fun r p =>
        (Scope.path f.root f.path).covers r p || Files.lists fs r p := by
      funext r p
      simp [Files.lists, Scope.covers, eq_comm]
    rw [hlists, ← erase_erase]
    unfold Files.removeEach
    rcases h.removeFile hr hp batch with ⟨m, hm, hnil⟩ | ⟨s, hs, hstored⟩
    · rw [Op.outcome_bind_ok (by rw [Op.outcome_attempt, hm])]
      have hsame : j.erase (Scope.path f.root f.path).covers = j := by
        apply erase_of_eq_nil
        intro r p hcovers
        obtain ⟨rfl, rfl⟩ : r = f.root ∧ p = f.path := by simpa [Scope.covers] using hcovers
        exact hnil
      rw [hsame]
      exact ih h hrest n
    · rw [Op.outcome_bind_ok (by rw [Op.outcome_attempt, hs])]
      exact ih hstored hrest (n + 1)

/-- The removal of all files in scope always succeeds, and forgets their histories. -/
theorem removeAllFiles (h : j.StoredIn t) {scope : Scope} (hscope : scope.Fits)
    (batch : Nat) :
    ∃ n s, (Files.removeAll scope batch).outcome t = (.ok n, s) ∧
      (j.erase scope.covers).StoredIn s := by
  obtain ⟨fs, hfs, hshort, hlists⟩ := h.listFiles hscope
  obtain ⟨n, s, hn, hstored⟩ := h.removeFiles hshort batch 0
  refine ⟨n, s, (Op.outcome_bind_ok hfs).trans hn, hstored.congr fun r p hr hp => ?_⟩
  by_cases hne : j r p = []
  · simp [Journal.erase, hne]
  · simp [Journal.erase, hlists r p hr hp hne]

/-- The listing of roots, if it can be read, names every root that is registered. -/
theorem listRoots (h : j.StoredIn t) {xs : List Root} (hxs : Roots.list.outcome t = (.ok xs, s))
    {q : String} (hq : t.has (.root q) = true) : ∃ x ∈ xs, x.path = q := by
  have hshort := h.keyed.short_root hq
  simp only [Roots.list, Op.outcome_read, Prod.mk.injEq] at hxs
  cases hscan : t.scan Codec.root Key.roots with
  | error e => simp [hscan, Except.map] at hxs
  | ok found =>
    simp only [hscan, Except.map, Except.ok.injEq] at hxs
    obtain ⟨b, hb⟩ := Table.has_iff.1 hq
    have hunder : (Key.root q).bytes ∈ t.keysUnder Key.roots :=
      Table.mem_keysUnder.2 ⟨Key.roots_prefix_iff.2 ⟨q, rfl⟩, b, hb⟩
    rw [← Table.map_fst_scan hscan, List.mem_map] at hunder
    obtain ⟨⟨k, x⟩, hx, rfl⟩ := hunder
    have hfetch := ((Table.mem_scan hscan).1 hx).2
    refine ⟨x, ?_, h.named.path_of_fetch hshort hfetch⟩
    rw [← hxs.1]
    exact List.mem_map.2 ⟨_, hx, rfl⟩

/-- A cascade over roots forgets the histories of the roots that it reaches; they are not
    registered any more.  If it is not stopped it reaches all of them. -/
theorem removeRoots (h : j.StoredIn t) (batch : Nat) (xs : List Root) (n : Nat) :
    ∃ a s, ∃ gone : String → Bool, (Roots.removeEach batch xs n).outcome t = (a, s) ∧
      (j.erase fun r _ => gone r).StoredIn s ∧
      (∀ q, Short q → s.has (.root q) = (t.has (.root q) && !gone q)) ∧
      ∀ m, a = .ok m → ∀ x ∈ xs, Short x.path → s.has (.root x.path) = false := by
  induction xs generalizing j t n with
  | nil =>
    exact ⟨.ok n, t, fun _ => false, rfl, j.erase_none.symm ▸ h, by simp, by simp⟩
  | cons x xs ih =>
    unfold Roots.removeEach
    rcases h.removeRoot x.path batch with
      ⟨e, he, hmissing⟩ | ⟨c, u, hu, hstored, hroots⟩
    · have hattempt : (Op.attempt (Roots.remove x.path batch)).outcome t = (.ok (.error e), t) := by
        rw [Op.outcome_attempt, he]
      rw [Op.outcome_bind_ok hattempt]
      -- a root that is gone is passed over; any other failure stops the cascade
      by_cases hmiss : ∃ m, e = .notFound m
      · obtain ⟨a, s, gone, hs, hstored, hroots, hall⟩ := ih h n
        refine ⟨a, s, gone, ?_, hstored, hroots, ?_⟩
        · obtain ⟨m, rfl⟩ := hmiss
          exact hs
        · intro m hm y hy hy'
          rcases List.mem_cons.1 hy with rfl | hy
          · simp [hroots _ hy', hmissing hmiss]
          · exact hall m hm y hy hy'
      · refine ⟨.error e, t, fun _ => false, ?_, j.erase_none.symm ▸ h, by simp, by simp⟩
        cases e
        case notFound m => exact absurd ⟨m, rfl⟩ hmiss
        all_goals rfl
    · have hattempt : (Op.attempt (Roots.remove x.path batch)).outcome t = (.ok (.ok c), u) := by
        rw [Op.outcome_attempt, hu]
      rw [Op.outcome_bind_ok hattempt]
      obtain ⟨a, s, gone, hs, hstored', hroots', hall⟩ := ih hstored (n + 1)
      refine ⟨a, s, fun r => decide (r = x.path) || gone r, hs, ?_, ?_, ?_⟩
      · rw [erase_erase] at hstored'
        exact hstored'
      · intro q hq
        rw [hroots' q hq, hroots q hq, Bool.not_or, Bool.and_assoc]
      · intro m hm y hy hy'
        rcases List.mem_cons.1 hy with rfl | hy
        · simp [hroots' _ hy', hroots _ hy']
        · exact hall m hm y hy hy'

/-- The removal of all roots forgets the histories of those that it leaves unregistered; if it
    succeeds no root is left. -/
theorem removeAllRoots (h : j.StoredIn t) (batch : Nat) :
    ∃ a s, (Roots.removeAll batch).outcome t = (a, s) ∧
      (j.erase fun r _ => !s.has (.root r)).StoredIn s ∧
      ∀ n, a = .ok n → ∀ r, s.has (.root r) = false := by
  cases hanswer : (Roots.list.outcome t).1 with
  | error e =>
    have hlist : Roots.list.outcome t = (.error e, t) := Prod.ext hanswer rfl
    refine ⟨.error e, t, Op.outcome_bind_error hlist, h.congr fun r p hr hp => ?_, by simp⟩
    by_cases hne : j r p = []
    · simp [Journal.erase, hne]
    · simp [Journal.erase, h.rooted r p hr hp hne]
  | ok xs =>
    have hlist : Roots.list.outcome t = (.ok xs, t) := Prod.ext hanswer rfl
    obtain ⟨a, s, gone, hs, hstored, hroots, hall⟩ := h.removeRoots batch xs 0
    refine ⟨a, s, (Op.outcome_bind_ok hlist).trans hs, hstored.congr fun r p hr hp => ?_, ?_⟩
    · by_cases hne : j r p = []
      · simp [Journal.erase, hne]
      · simp [Journal.erase, hroots r hr, h.rooted r p hr hp hne]
    · intro n hn r
      by_contra hthere
      have hthere : s.has (.root r) = true := by simpa using hthere
      have hr := hstored.keyed.short_root hthere
      have hbefore : t.has (.root r) = true := by
        rw [hroots r hr, Bool.and_eq_true] at hthere
        exact hthere.1
      obtain ⟨x, hx, rfl⟩ := h.listRoots hlist hbefore
      rw [hall n hn x hx hr] at hthere
      contradiction

end Journal.StoredIn

end SyncLedger
