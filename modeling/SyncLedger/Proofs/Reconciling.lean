/-
  SyncLedger/Proofs/Reconciling.lean
  ==================================
  **What an observation does to the commit log.**  Where a table stores a journal, an
  observation that is accepted either leaves the journal as it is (a duplicate, which may
  replace what the client says of the file) or adds the version that it answers with
  (`StoredIn.reconcile`).

  The timestamp of a new version is above the last one of each path that the version touches.
  That is all that is needed for the two copies of a rename to land on free keys
  (`StoredIn.free`), and so `History.append` never refuses (`StoredIn.record_eq`).  An
  observation that is tried again runs as one of its attempts (`Attempt.run_cases`).
-/
import SyncLedger.Index.Retry
import SyncLedger.Proofs.Journal

namespace SyncLedger

variable {o : Observation} {j : Journal} {t s : Records}

/-! ### Observations -/

/-- The names of an observation are short and its dates can be represented. -/
structure Observation.Fits (o : Observation) : Prop where
  root : Short o.root
  path : Short o.path
  hash : Short o.hash
  metadata : o.metadata.Fits
  former : ∀ p ∈ o.renamedFrom, Short p

namespace Observation

/-- The version that an observation becomes. -/
def versionAt (o : Observation) (current source : Option File) (now : Instant) (ts : UInt64) :
    Version :=
  { root := o.root, before := source.map (·.path), after := o.path, date := now,
    client := o.client, timestamp := ts, hash := o.hash, change := o.changeOf current source }

theorem source?_eq_some {p : String} (h : o.source? = some p) :
    o.renamedFrom = some p ∧ p ≠ o.path := by
  simpa [source?, Option.filter_eq_some_iff] using h

theorem lt_of_timestampAbove {floor ts : UInt64} (h : o.timestampAbove floor = .ok ts) :
    floor < ts := by
  unfold timestampAbove at h
  split at h
  · split at h
    · rename_i hlt
      obtain rfl := Except.ok.inj h
      exact hlt
    · contradiction
  · split at h
    · contradiction
    · rename_i hmax
      obtain rfl := Except.ok.inj h
      have hbound := floor.toNat_lt
      have hne : floor.toNat ≠ 0xFFFFFFFFFFFFFFFF := fun heq => hmax (UInt64.toNat_inj.1 heq)
      rw [UInt64.lt_iff_toNat_lt, UInt64.toNat_add, UInt64.toNat_one]
      omega

theorem present_of_source (hopen : o.refusal? = none) {p : String} (h : o.source? = some p) :
    o.present = true := by
  unfold refusal? at hopen
  split at hopen
  · contradiction
  · split at hopen
    · contradiction
    · rename_i hdelete
      simpa [(source?_eq_some h).1] using hdelete

end Observation

/-! ### Steps of a reconciliation -/

namespace Files

theorem ensureOpen_eq_ok_iff {r p : String} {u : Unit} :
    ensureOpen r p t = .ok (u, s) ↔ t.has (.marker r (some p)) = false ∧ t = s := by
  unfold ensureOpen
  rw [Txn.bind_eq_ok_iff]
  constructor
  · rintro ⟨b, t', hb, h⟩
    obtain ⟨rfl, rfl⟩ := Txn.has_eq_ok_iff.1 hb
    split at h
    · exact absurd h Txn.abort_ne_ok
    · rename_i hfree
      exact ⟨by simpa using hfree, (Txn.pure_eq_ok_iff.1 h).2⟩
  · rintro ⟨hfree, rfl⟩
    exact ⟨false, t, Txn.has_eq_ok_iff.2 ⟨hfree, rfl⟩, rfl⟩

/-- A rename source that is found is there, at another path that is open; nothing was written. -/
theorem sourceOf_ok {source : Option File} (h : sourceOf o t = .ok (source, s)) :
    t = s ∧ ((o.source? = none ∧ source = none) ∨ ∃ p f, o.source? = some p ∧ source = some f ∧
      t.has (.marker o.root (some p)) = false ∧
      t.fetch Codec.file (Key.file o.root p).bytes = .ok (some f) ∧ f.present = true) := by
  unfold sourceOf at h
  cases hsource : o.source? with
  | none =>
    simp only [hsource] at h
    obtain ⟨rfl, rfl⟩ := Txn.pure_eq_ok_iff.1 h
    exact ⟨rfl, Or.inl ⟨rfl, rfl⟩⟩
  | some p =>
    simp only [hsource, Txn.bind_eq_ok_iff] at h
    obtain ⟨_, _, hopen, current, _, hfetch, h⟩ := h
    obtain ⟨hfree, rfl⟩ := ensureOpen_eq_ok_iff.1 hopen
    obtain ⟨hstored, rfl⟩ := Txn.fetch_eq_ok_iff.1 hfetch
    cases current with
    | none => exact absurd h Txn.abort_ne_ok
    | some f =>
      by_cases hpresent : f.present = true
      · simp only [hpresent, if_true] at h
        obtain ⟨rfl, rfl⟩ := Txn.pure_eq_ok_iff.1 h
        exact ⟨rfl, Or.inr ⟨p, f, rfl, rfl, hfree, hstored, hpresent⟩⟩
      · simp only [hpresent, Bool.false_eq_true, if_false] at h
        exact absurd h Txn.abort_ne_ok

/-- The table after a version with its file records was written. -/
def written (o : Observation) (source : Option File) (v : Version) (t : Records) : Records :=
  let target (t : Records) := t.insert (Key.file o.root o.path).bytes
    (Codec.file.encode (o.fileAt v.timestamp))
  let t := t.insert (Key.version o.root o.path v.timestamp).bytes (Codec.version.encode v)
  match source with
  | none => target t
  | some f =>
    let left := { f with hash := o.hash, timestamp := v.timestamp, present := false }
    target <| (t.insert (Key.version o.root f.path v.timestamp).bytes
      (Codec.version.encode v)).insert (Key.file o.root f.path).bytes (Codec.file.encode left)

section Written

variable {v : Version} {source : Option File} {key : Key}

theorem get?_written_none (hroot : Short o.root) (hpath : Short o.path) (hkey : key.Fits) :
    (written o none v t).get? key.bytes
      = if key = .file o.root o.path then some (Codec.file.encode (o.fileAt v.timestamp))
        else if key = .version o.root o.path v.timestamp then some (Codec.version.encode v)
        else t.get? key.bytes := by
  have hfile : (Key.file o.root o.path).Fits := ⟨hroot, hpath⟩
  have hversion : (Key.version o.root o.path v.timestamp).Fits := ⟨hroot, hpath⟩
  simp only [written]
  rw [get?_insert_key hfile hkey, get?_insert_key hversion hkey]

theorem get?_written_some {f : File} (hroot : Short o.root) (hpath : Short o.path)
    (hf : Short f.path) (hkey : key.Fits) :
    (written o (some f) v t).get? key.bytes
      = if key = .file o.root o.path then some (Codec.file.encode (o.fileAt v.timestamp))
        else if key = .file o.root f.path then
          some (Codec.file.encode
            { f with hash := o.hash, timestamp := v.timestamp, present := false })
        else if key = .version o.root f.path v.timestamp then some (Codec.version.encode v)
        else if key = .version o.root o.path v.timestamp then some (Codec.version.encode v)
        else t.get? key.bytes := by
  have hfile : (Key.file o.root o.path).Fits := ⟨hroot, hpath⟩
  have hfile' : (Key.file o.root f.path).Fits := ⟨hroot, hf⟩
  have hversion : (Key.version o.root o.path v.timestamp).Fits := ⟨hroot, hpath⟩
  have hversion' : (Key.version o.root f.path v.timestamp).Fits := ⟨hroot, hf⟩
  simp only [written]
  rw [get?_insert_key hfile hkey, get?_insert_key hfile' hkey, get?_insert_key hversion' hkey,
    get?_insert_key hversion hkey]

theorem get?_written_target (hroot : Short o.root) (hpath : Short o.path)
    (hsource : ∀ f ∈ source, Short f.path) :
    (written o source v t).get? (Key.file o.root o.path).bytes
      = some (Codec.file.encode (o.fileAt v.timestamp)) := by
  have hkey : (Key.file o.root o.path).Fits := ⟨hroot, hpath⟩
  cases source with
  | none => rw [get?_written_none hroot hpath hkey, if_pos rfl]
  | some f => rw [get?_written_some hroot hpath (hsource f rfl) hkey, if_pos rfl]

theorem get?_written_source {f : File} (hroot : Short o.root) (hpath : Short o.path)
    (hf : Short f.path) (hne : f.path ≠ o.path) :
    (written o (some f) v t).get? (Key.file o.root f.path).bytes
      = some (Codec.file.encode
          { f with hash := o.hash, timestamp := v.timestamp, present := false }) := by
  have hkey : (Key.file o.root f.path).Fits := ⟨hroot, hf⟩
  rw [get?_written_some hroot hpath hf hkey, if_neg (by simpa using hne), if_pos rfl]

theorem get?_written_version (hroot : Short o.root) (hpath : Short o.path)
    (hsource : ∀ f ∈ source, Short f.path) {p : String}
    (hp : p = o.path ∨ ∃ f ∈ source, f.path = p) :
    (written o source v t).get? (Key.version o.root p v.timestamp).bytes
      = some (Codec.version.encode v) := by
  have hkey : (Key.version o.root p v.timestamp).Fits := by
    rcases hp with rfl | ⟨f, hf, rfl⟩
    · exact ⟨hroot, hpath⟩
    · exact ⟨hroot, hsource f hf⟩
  cases source with
  | none =>
    obtain rfl : p = o.path := by simpa using hp
    rw [get?_written_none hroot hpath hkey, if_neg (by simp), if_pos rfl]
  | some f =>
    rw [get?_written_some hroot hpath (hsource f rfl) hkey, if_neg (by simp), if_neg (by simp)]
    rcases hp with rfl | ⟨g, hg, rfl⟩
    · rw [if_pos rfl, ite_self]
    · obtain rfl : f = g := Option.some.inj hg
      rw [if_pos rfl]

/-- Only the keys of the version and of the files that it touches are written. -/
theorem get?_written_of_ne (hroot : Short o.root) (hpath : Short o.path)
    (hsource : ∀ f ∈ source, Short f.path) (hkey : key.Fits)
    (hne : ∀ p, (p = o.path ∨ ∃ f ∈ source, f.path = p) →
      key ≠ .version o.root p v.timestamp ∧ key ≠ .file o.root p) :
    (written o source v t).get? key.bytes = t.get? key.bytes := by
  obtain ⟨hversion, hfile⟩ := hne o.path (Or.inl rfl)
  cases source with
  | none => rw [get?_written_none hroot hpath hkey, if_neg hfile, if_neg hversion]
  | some f =>
    obtain ⟨hversion', hfile'⟩ := hne f.path (Or.inr ⟨f, rfl, rfl⟩)
    rw [get?_written_some hroot hpath (hsource f rfl) hkey, if_neg hfile, if_neg hfile',
      if_neg hversion', if_neg hversion]

theorem keyed_written (ht : Keyed t) (hroot : Short o.root) (hpath : Short o.path)
    (hsource : ∀ f ∈ source, Short f.path) : Keyed (written o source v t) := by
  have hfile : (Key.file o.root o.path).Fits := ⟨hroot, hpath⟩
  have hnew : Keyed _ := ht.insert (k := .version o.root o.path v.timestamp) ⟨hroot, hpath⟩
    (Codec.version.encode v)
  cases source with
  | none => exact hnew.insert hfile _
  | some f =>
    have hfile' : (Key.file o.root f.path).Fits := ⟨hroot, hsource f rfl⟩
    have hversion' : (Key.version o.root f.path v.timestamp).Fits := ⟨hroot, hsource f rfl⟩
    exact ((hnew.insert hversion' _).insert hfile' _).insert hfile _

end Written

theorem liftM_eq_ok_iff {α : Type} {x : Except Error α} {v : α} :
    (liftM x : Txn α) t = .ok (v, s) ↔ x = .ok v ∧ t = s := by
  cases x with
  | error e =>
    constructor
    · intro h
      cases h
    · rintro ⟨h, _⟩
      cases h
  | ok w =>
    show Except.ok (w, t) = .ok (v, s) ↔ _
    simp

/-- A version is refused where one stands under its own path; the former path is not looked
    at. -/
theorem append_eq_ok_iff {v : Version} {u : Unit} :
    History.append v t = .ok (u, s) ↔ t.has (.version v.root v.after v.timestamp) = false ∧
      s = match v.before with
        | none => t.insert (Key.version v.root v.after v.timestamp).bytes (Codec.version.encode v)
        | some p => (t.insert (Key.version v.root v.after v.timestamp).bytes
            (Codec.version.encode v)).insert (Key.version v.root p v.timestamp).bytes
            (Codec.version.encode v) := by
  unfold History.append
  simp only [Txn.bind_eq_ok_iff, Txn.has_eq_ok_iff]
  cases hhas : t.has (.version v.root v.after v.timestamp) with
  | true =>
    constructor
    · rintro ⟨_, _, ⟨rfl, rfl⟩, h⟩
      obtain ⟨_, _, h, _⟩ := Txn.bind_eq_ok_iff.1 h
      exact absurd h Txn.abort_ne_ok
    · rintro ⟨h, _⟩
      contradiction
  | false =>
    simp only [true_and]
    constructor
    · rintro ⟨_, _, ⟨rfl, rfl⟩, h⟩
      obtain ⟨_, _, hput, h⟩ := Txn.bind_eq_ok_iff.1 h
      obtain rfl := Txn.put_eq_ok_iff.1 hput
      cases hbefore : v.before with
      | none =>
        simp only [hbefore] at h
        exact (Txn.pure_eq_ok_iff.1 h).2.symm
      | some p =>
        simp only [hbefore] at h
        exact (Txn.put_eq_ok_iff.1 h).symm
    · rintro rfl
      refine ⟨false, t, ⟨rfl, rfl⟩, Txn.bind_eq_ok_iff.2 ⟨(), _, Txn.put_eq_ok_iff.2 rfl, ?_⟩⟩
      cases v.before with
      | none => rfl
      | some p => rfl

theorem record_eq_ok_iff {current source : Option File} {now : Instant} {d : Decision} :
    record o current source now t = .ok (d, s) ↔
      ∃ ts, o.timestampAbove (floorOf current source) = .ok ts ∧
        t.has (.version o.root o.path ts) = false ∧
        d = .recorded (o.versionAt current source now ts) ∧
        s = written o source (o.versionAt current source now ts) t := by
  unfold record
  simp only [Txn.bind_eq_ok_iff, liftM_eq_ok_iff, append_eq_ok_iff]
  constructor
  · rintro ⟨ts, _, ⟨hts, rfl⟩, _, _, ⟨hfree, rfl⟩, h⟩
    refine ⟨ts, hts, hfree, ?_⟩
    cases source with
    | none =>
      obtain ⟨_, _, hput, h⟩ := Txn.bind_eq_ok_iff.1 h
      obtain rfl := Txn.put_eq_ok_iff.1 hput
      obtain ⟨rfl, rfl⟩ := Txn.pure_eq_ok_iff.1 h
      exact ⟨rfl, rfl⟩
    | some f =>
      obtain ⟨_, _, hput, h⟩ := Txn.bind_eq_ok_iff.1 h
      obtain rfl := Txn.put_eq_ok_iff.1 hput
      obtain ⟨_, _, hput, h⟩ := Txn.bind_eq_ok_iff.1 h
      obtain rfl := Txn.put_eq_ok_iff.1 hput
      obtain ⟨rfl, rfl⟩ := Txn.pure_eq_ok_iff.1 h
      exact ⟨rfl, rfl⟩
  · rintro ⟨ts, hts, hfree, rfl, rfl⟩
    refine ⟨ts, t, ⟨hts, rfl⟩, (), _, ⟨hfree, rfl⟩, ?_⟩
    cases source with
    | none => rfl
    | some f => rfl

theorem refresh_ok {f : File} {d : Decision} (h : refresh o f t = .ok (d, s)) :
    d = .duplicate { f with metadata := o.metadata } ∧
      (s = t ∨ s = t.insert (Key.file o.root o.path).bytes
        (Codec.file.encode { f with metadata := o.metadata })) := by
  unfold refresh at h
  split at h
  · obtain ⟨_, _, hput, h⟩ := Txn.bind_eq_ok_iff.1 h
    obtain rfl := Txn.put_eq_ok_iff.1 hput
    obtain ⟨rfl, rfl⟩ := Txn.pure_eq_ok_iff.1 h
    exact ⟨rfl, Or.inr rfl⟩
  · obtain ⟨rfl, rfl⟩ := Txn.pure_eq_ok_iff.1 h
    exact ⟨rfl, Or.inl rfl⟩

/-- The floor of a new version is not below any state that it replaces. -/
theorem timestamp_le_floorOf {current source : Option File} {f : File}
    (h : current = some f ∨ source = some f) : f.timestamp ≤ floorOf current source := by
  have hleft (a b : UInt64) : a ≤ max a b := by
    show a ≤ if a ≤ b then b else a
    split
    · assumption
    · exact UInt64.le_refl a
  have hright (a b : UInt64) : b ≤ max a b := by
    show b ≤ if a ≤ b then b else a
    split
    · exact UInt64.le_refl b
    · rename_i hab
      exact (UInt64.le_total a b).resolve_left hab
  rcases h with rfl | rfl
  · exact hleft _ _
  · exact hright _ _

/-- What was read and decided by an observation that was accepted. -/
theorem reconcile_ok {now : Instant} {d : Decision} (h : reconcile o now t = .ok (d, s)) :
    o.refusal? = none ∧ t.has (.root o.root) = true ∧
    t.has (.marker o.root (some o.path)) = false ∧ ∃ current source,
      t.fetch Codec.file (Key.file o.root o.path).bytes = .ok current ∧
      sourceOf o t = .ok (source, t) ∧
      ((∃ f, current = some f ∧ refresh o f t = .ok (d, s)) ∨
        record o current source now t = .ok (d, s)) := by
  unfold reconcile at h
  cases hopen : o.refusal? with
  | some why =>
    simp only [hopen] at h
    obtain ⟨_, _, h, _⟩ := Txn.bind_eq_ok_iff.1 h
    exact absurd h Txn.abort_ne_ok
  | none =>
    simp only [hopen] at h
    obtain ⟨r, _, hroot, h⟩ := Txn.bind_eq_ok_iff.1 h
    obtain ⟨hstored, rfl⟩ := Txn.require_eq_ok_iff.1 hroot
    obtain ⟨b, hb, _⟩ := Table.fetch_eq_some_iff.1 hstored
    split at h
    · obtain ⟨_, _, h, _⟩ := Txn.bind_eq_ok_iff.1 h
      exact absurd h Txn.abort_ne_ok
    · simp only [Txn.bind_eq_ok_iff] at h
      obtain ⟨_, _, hopen, current, _, hcurrent, source, _, hsource, h⟩ := h
      obtain ⟨hfree, rfl⟩ := ensureOpen_eq_ok_iff.1 hopen
      obtain ⟨hread, rfl⟩ := Txn.fetch_eq_ok_iff.1 hcurrent
      obtain ⟨rfl, _⟩ := sourceOf_ok hsource
      refine ⟨rfl, Table.has_iff.2 ⟨b, hb⟩, hfree, current, source, hread, hsource, ?_⟩
      cases current with
      | none => exact Or.inr h
      | some f =>
        by_cases hsame : isDuplicate o (some f) source = true
        · simp only [hsame, if_true] at h
          exact Or.inl ⟨f, rfl, h⟩
        · simp only [hsame, Bool.false_eq_true, if_false] at h
          exact Or.inr h

end Files

/-! ### The journal after an observation -/

namespace Journal.StoredIn

variable {current source : Option File} {now : Instant} {ts : UInt64}

/-- What is above the state of a path is above its versions. -/
theorem late (h : j.StoredIn t) {r p : String} (hr : Short r) (hp : Short p)
    (hcurrent : t.fetch Codec.file (Key.file r p).bytes = .ok current)
    (hts : ∀ f ∈ current, f.timestamp < ts) : ∀ w ∈ j r p, w.timestamp < ts := by
  intro w hw
  cases current with
  | none =>
    rw [h.fetch_file_none hr hp hcurrent] at hw
    contradiction
  | some f =>
    obtain ⟨v, m, hlast, _, rfl⟩ := h.fetch_file hr hp hcurrent
    have hle := timestamp_le_last (h.history r p hr hp) hlast w hw
    exact UInt64.lt_of_le_of_lt hle (hts _ rfl)

/-- The state of a rename source is that of a path of the same root. -/
theorem source_eq (h : j.StoredIn t) (ho : o.Fits) (hsource : Files.sourceOf o t = .ok (source, t))
    {f : File} (hf : source = some f) :
    o.source? = some f.path ∧ Short f.path ∧ f.root = o.root ∧ f.metadata.Fits ∧
      t.fetch Codec.file (Key.file o.root f.path).bytes = .ok (some f) := by
  rcases (Files.sourceOf_ok hsource).2 with ⟨_, hnone⟩ | ⟨p, g, hp, hg, _, hfetch, _⟩
  · rw [hnone] at hf
    contradiction
  · obtain rfl : g = f := Option.some.inj (hg.symm.trans hf)
    have hshort : Short p := ho.former p (Observation.source?_eq_some hp).1
    obtain ⟨v, m, hlast, hm, rfl⟩ := h.fetch_file ho.root hshort hfetch
    have hroot := (h.history _ p ho.root hshort).root v (List.mem_of_getLast? hlast)
    exact ⟨hp, hshort, hroot, hm, hfetch⟩

/-- The timestamp of a new version is above those of the paths that it touches. -/
theorem late_touched (h : j.StoredIn t) (ho : o.Fits)
    (hcurrent : t.fetch Codec.file (Key.file o.root o.path).bytes = .ok current)
    (hsource : Files.sourceOf o t = .ok (source, t))
    (hts : o.timestampAbove (Files.floorOf current source) = .ok ts) {p : String}
    (hp : p = o.path ∨ ∃ f ∈ source, f.path = p) :
    Short p ∧ ∀ w ∈ j o.root p, w.timestamp < ts := by
  have hfloor := Observation.lt_of_timestampAbove hts
  rcases hp with rfl | ⟨f, hf, rfl⟩
  · refine ⟨ho.path, h.late ho.root ho.path hcurrent fun f hf => ?_⟩
    exact UInt64.lt_of_le_of_lt (Files.timestamp_le_floorOf (Or.inl hf)) hfloor
  · obtain ⟨_, hshort, _, _, hfetch⟩ := h.source_eq ho hsource hf
    refine ⟨hshort, h.late ho.root hshort hfetch fun g hg => ?_⟩
    obtain rfl : f = g := Option.some.inj hg
    exact UInt64.lt_of_le_of_lt (Files.timestamp_le_floorOf (Or.inr hf)) hfloor

/-- The keys of a new version are free. -/
theorem free (h : j.StoredIn t) (ho : o.Fits)
    (hcurrent : t.fetch Codec.file (Key.file o.root o.path).bytes = .ok current)
    (hsource : Files.sourceOf o t = .ok (source, t))
    (hts : o.timestampAbove (Files.floorOf current source) = .ok ts) {p : String}
    (hp : p = o.path ∨ ∃ f ∈ source, f.path = p) : t.has (.version o.root p ts) = false := by
  obtain ⟨hshort, hlate⟩ := h.late_touched ho hcurrent hsource hts hp
  exact Table.has_eq_false_iff.2 (h.get?_version_of_late ho.root hshort hlate)

/-- A new version is written whenever it has a timestamp. -/
theorem record_eq (h : j.StoredIn t) (ho : o.Fits) (now : Instant)
    (hcurrent : t.fetch Codec.file (Key.file o.root o.path).bytes = .ok current)
    (hsource : Files.sourceOf o t = .ok (source, t))
    (hts : o.timestampAbove (Files.floorOf current source) = .ok ts) :
    Files.record o current source now t = .ok (.recorded (o.versionAt current source now ts),
      Files.written o source (o.versionAt current source now ts) t) :=
  Files.record_eq_ok_iff.2 ⟨ts, hts, h.free ho hcurrent hsource hts (Or.inl rfl), rfl, rfl⟩

/-- The state that a new version leaves its path in. -/
theorem fileAt_target (h : j.StoredIn t) (ho : o.Fits) (hopen : o.refusal? = none)
    (hsource : Files.sourceOf o t = .ok (source, t)) (current : Option File) (now : Instant)
    (ts : UInt64) :
    o.fileAt ts = (o.versionAt current source now ts).fileAt o.path o.metadata := by
  have hremoves : (o.versionAt current source now ts).removes o.path = !o.present := by
    cases hs : source with
    | some f =>
      obtain ⟨hfrom, _⟩ := h.source_eq ho hsource hs
      have hne := (Observation.source?_eq_some hfrom).2
      simp [Version.removes, Observation.versionAt, Observation.changeOf, hne,
        Observation.present_of_source hopen hfrom]
    | none =>
      cases hpresent : o.present with
      | false => simp [Version.removes, Observation.versionAt, Observation.changeOf, hpresent]
      | true =>
        simp only [Version.removes, Observation.versionAt, Observation.changeOf, hpresent]
        cases current.any (·.present) <;> rfl
  simp [Observation.fileAt, Version.fileAt, hremoves]
  exact ⟨rfl, rfl, rfl⟩

/-- The state that a rename leaves its source in. -/
theorem fileAt_source (h : j.StoredIn t) (ho : o.Fits)
    {f : File} (hsource : Files.sourceOf o t = .ok (some f, t)) :
    { f with hash := o.hash, timestamp := ts, present := false }
      = (o.versionAt current (some f) now ts).fileAt f.path f.metadata := by
  obtain ⟨_, _, hroot, _⟩ := h.source_eq ho hsource rfl
  simp [Version.fileAt, Version.removes, Observation.versionAt, Observation.changeOf, hroot]

/-- A new version is well formed. -/
theorem versionAt_fits (h : j.StoredIn t) (ho : o.Fits) (hnow : now.Representable)
    (hsource : Files.sourceOf o t = .ok (source, t)) (current : Option File) (ts : UInt64) :
    (o.versionAt current source now ts).Fits ∧
      (o.versionAt current source now ts).before ≠ some o.path := by
  have hbefore {p : String} (hp : (o.versionAt current source now ts).before = some p) :
      Short p ∧ p ≠ o.path := by
    obtain ⟨f, hf, rfl⟩ := Option.map_eq_some_iff.1 hp
    obtain ⟨hfrom, hshort, _⟩ := h.source_eq ho hsource hf
    exact ⟨hshort, (Observation.source?_eq_some hfrom).2⟩
  exact ⟨⟨ho.root, fun p hp => (hbefore hp).1, ho.path, hnow, ho.hash⟩,
    fun hp => (hbefore hp).2 rfl⟩

/-- What an observation writes has the new version and its file records at the paths that it
    touches, and is otherwise the table as it was. -/
theorem written (h : j.StoredIn t) (ho : o.Fits) (hnow : now.Representable)
    (hopen : o.refusal? = none) (hroot : t.has (.root o.root) = true)
    (hcurrent : t.fetch Codec.file (Key.file o.root o.path).bytes = .ok current)
    (hsource : Files.sourceOf o t = .ok (source, t))
    (hts : o.timestampAbove (Files.floorOf current source) = .ok ts) :
    (j.record (o.versionAt current source now ts)).StoredIn
      (Files.written o source (o.versionAt current source now ts) t) := by
  obtain ⟨hfits, hmoves⟩ := h.versionAt_fits ho hnow hsource current ts
  have htarget := h.fileAt_target ho hopen hsource current now ts
  have hpositive : 0 < ts :=
    UInt64.lt_of_le_of_lt (UInt64.le_iff_toNat_le.2 (Nat.zero_le _))
      (Observation.lt_of_timestampAbove hts)
  have hshort : ∀ f ∈ source, Short f.path := fun f hf => (h.source_eq ho hsource hf).2.1
  have hkeyed := Files.keyed_written (v := o.versionAt current source now ts) h.keyed ho.root
    ho.path hshort
  have htouches {p : String} : (o.versionAt current source now ts).Touches p ↔
      p = o.path ∨ ∃ f ∈ source, f.path = p := by
    simp [Version.Touches, Observation.versionAt]
  have hlate (p : String) (hp : (o.versionAt current source now ts).Touches p) :=
    (h.late_touched ho hcurrent hsource hts (htouches.1 hp)).2
  refine h.record hfits hmoves hpositive hroot hlate hkeyed ?_ ?_ ?_
  · intro p hp
    exact Files.get?_written_version ho.root ho.path hshort (htouches.1 hp)
  · intro p hp
    rcases htouches.1 hp with rfl | ⟨f, hf, rfl⟩
    · refine ⟨o.metadata, ho.metadata, ?_⟩
      rw [← htarget]
      exact Files.get?_written_target ho.root ho.path hshort
    · obtain rfl : source = some f := hf
      obtain ⟨hfrom, _, _, hm, _⟩ := h.source_eq ho hsource rfl
      refine ⟨f.metadata, hm, ?_⟩
      rw [← h.fileAt_source ho hsource]
      exact Files.get?_written_source ho.root ho.path (hshort f rfl)
        (Observation.source?_eq_some hfrom).2
  · intro key hkey hother
    exact Files.get?_written_of_ne ho.root ho.path hshort hkey
      fun p hp => hother p (htouches.2 hp)

end Journal.StoredIn

/-- The version that a decision adds, if any. -/
def Decision.version? : Decision → Option Version
  | .recorded v => some v
  | .duplicate _ => none

/-- The journal with one more version, if there is one. -/
def Journal.advance (j : Journal) : Option Version → Journal
  | some v => j.record v
  | none => j

namespace Journal.StoredIn

/-- An observation that is accepted adds to the journal exactly the version it answers with. -/
theorem reconcile (h : j.StoredIn t) (ho : o.Fits) {now : Instant} (hnow : now.Representable)
    {d : Decision} (hd : Files.reconcile o now t = .ok (d, s)) :
    (j.advance d.version?).StoredIn s := by
  obtain ⟨hopen, hroot, _, current, source, hcurrent, hsource, hcases⟩ := Files.reconcile_ok hd
  rcases hcases with ⟨f, rfl, hrefresh⟩ | hrecord
  · obtain ⟨rfl, rfl | rfl⟩ := Files.refresh_ok hrefresh
    · exact h
    · obtain ⟨v, m, hlast, _, rfl⟩ := h.fetch_file ho.root ho.path hcurrent
      exact h.refresh ho.root ho.path hlast ho.metadata
  · obtain ⟨ts, hts, _, rfl, rfl⟩ := Files.record_eq_ok_iff.1 hrecord
    exact h.written ho hnow hopen hroot hcurrent hsource hts

end Journal.StoredIn

/-! ### Attempts -/

theorem Observation.afterConflict_eq {o o' : Observation} {latest : UInt64}
    (h : o.afterConflict latest = some o') : ∃ stamp, o' = { o with stamp } := by
  unfold afterConflict at h
  split at h
  · exact ⟨o.stamp, (Option.some.inj h).symm⟩
  · split at h
    · exact ⟨o.stamp, (Option.some.inj h).symm⟩
    · split at h
      · contradiction
      · exact ⟨_, (Option.some.inj h).symm⟩

namespace Attempt

/-- Another attempt follows a conflict, if there is a delay for it and a stamp. -/
theorem conflict_of_judge {a next : Attempt} {outcome : Except Error Decision} {wait : UInt64}
    (h : a.judge outcome = .again wait next) :
    ∃ key latest, outcome = .error (.conflict key latest) ∧
      a.backoff.next = some (wait, next.backoff) ∧
      a.observation.afterConflict latest = some next.observation := by
  unfold judge at h
  split at h
  · rename_i key latest
    split at h
    · rename_i hnext hafter
      obtain ⟨rfl, rfl⟩ := Verdict.again.inj h
      exact ⟨key, latest, rfl, hnext, hafter⟩
    · contradiction
  · contradiction

/-- Only a failure is tried again, and only the stamp of the observation changes. -/
theorem judge_again {a next : Attempt} {outcome : Except Error Decision} {wait : UInt64}
    (h : a.judge outcome = .again wait next) :
    (∃ e, outcome = .error e) ∧ ∃ stamp, next.observation = { a.observation with stamp } := by
  obtain ⟨key, latest, rfl, -, hafter⟩ := conflict_of_judge h
  exact ⟨⟨_, rfl⟩, Observation.afterConflict_eq hafter⟩

theorem judge_done {a : Attempt} {outcome answer : Except Error Decision}
    (h : a.judge outcome = .done answer) : answer = outcome := by
  unfold judge at h
  split at h
  · split at h
    · contradiction
    · exact (Verdict.done.inj h).symm
  · exact (Verdict.done.inj h).symm

theorem observe_outcome (o : Observation) (now : Instant) (t : Records) :
    (Files.observe o now).outcome t = match Files.reconcile o now t with
      | .ok (d, s) => (.ok d, s)
      | .error e => (.error e, t) := by
  unfold Files.observe
  cases hr : Files.reconcile o now t with
  | ok r => exact Op.outcome_commit_ok hr
  | error e => exact Op.outcome_commit_error hr

theorem outcome_run (a : Attempt) (now : Instant) (t : Records) :
    (a.run now).outcome t = match a.judge ((Files.observe a.observation now).outcome t).1 with
      | .done answer => (answer, ((Files.observe a.observation now).outcome t).2)
      | .again _ next =>
        (next.run now).outcome ((Files.observe a.observation now).outcome t).2 := by
  simp only [Op.outcome]
  rw [run]
  simp only [Op.attempt]
  split
  · rename_i h
    rw [h]
    rfl
  · rename_i h
    rw [h]
    exact congrArg _ (Op.final_append _ _ _ _ t)

/-- A run fails and writes nothing, or is one reconciliation of its observation with some
    stamp. -/
theorem run_cases (a : Attempt) (now : Instant) (t : Records) :
    (∃ e, (a.run now).outcome t = (.error e, t)) ∨
      ∃ stamp d s, Files.reconcile { a.observation with stamp } now t = .ok (d, s) ∧
        (a.run now).outcome t = (.ok d, s) := by
  -- on the attempts that are left: only a failure is tried again, and a failure writes nothing
  induction hn : a.left using Nat.strong_induction_on generalizing a with
  | _ n ih =>
    subst hn
    rw [outcome_run, observe_outcome]
    cases hd : Files.reconcile a.observation now t with
    | ok r =>
      cases hj : a.judge (.ok r.1) with
      | done answer =>
        rw [judge_done hj]
        exact Or.inr ⟨a.observation.stamp, r.1, r.2, hd, rfl⟩
      | again wait next =>
        obtain ⟨⟨e, he⟩, _⟩ := judge_again hj
        contradiction
    | error e =>
      cases hj : a.judge (.error e) with
      | done answer => exact Or.inl ⟨e, by rw [judge_done hj]⟩
      | again wait next =>
        obtain ⟨_, stamp, hstamp⟩ := judge_again hj
        rcases ih _ (left_of_judge hj) next rfl with hfail | ⟨stamp', d, s, hd', hrun⟩
        · exact Or.inl hfail
        · rw [hstamp] at hd'
          exact Or.inr ⟨stamp', d, s, hd', hrun⟩

end Attempt

end SyncLedger
