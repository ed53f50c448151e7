/-
  SyncLedger/Proofs/Keys.lean
  ===========================
  **The key layout is unambiguous.**  Four bytes hold the length of a name below 2 ^ 32 bytes
  (`Short`).  For such names a segment can be read off the front of any byte string, so

  * different keys have different bytes (`bytes_inj`);
  * the prefix of a root, or of a path, covers the keys of that root or path and no others
    (`filesOf_prefix_iff`, `versionsOf_prefix_iff`, `versionsAt_prefix_iff`);
  * the versions of one path stand in the order of their timestamps (`version_lt_iff`).
-/
import SyncLedger.Key
import SyncLedger.Proofs.Bytes

namespace SyncLedger

/-- A name whose number of bytes fits in four bytes. -/
def Short (name : String) : Prop := name.utf8ByteSize < 2 ^ 32

instance (name : String) : Decidable (Short name) := inferInstanceAs (Decidable (_ < _))

namespace Key

/-- A key whose names are all short. -/
def Fits : Key → Prop
  | .client _ => True
  | .root r => Short r
  | .file r p => Short r ∧ Short p
  | .version r p _ => Short r ∧ Short p
  | .marker r p => Short r ∧ ∀ q ∈ p, Short q

@[simp] theorem fits_client (id : Uuid) : (Key.client id).Fits := trivial

@[simp] theorem fits_root {r : String} : (Key.root r).Fits ↔ Short r := Iff.rfl

@[simp] theorem fits_file {r p : String} : (Key.file r p).Fits ↔ Short r ∧ Short p := Iff.rfl

@[simp] theorem fits_version {r p : String} {t : UInt64} :
    (Key.version r p t).Fits ↔ Short r ∧ Short p := Iff.rfl

@[simp] theorem fits_marker {r : String} {p : Option String} :
    (Key.marker r p).Fits ↔ Short r ∧ ∀ q ∈ p, Short q := Iff.rfl

/-! ### Segments -/

theorem ofBigEndian_length (name : String) (h : Short name) :
    Bytes.ofBigEndian (Bytes.bigEndian 4 name.utf8ByteSize) = name.utf8ByteSize := by
  rw [Bytes.ofBigEndian_bigEndian]
  exact Nat.mod_eq_of_lt h

/-- A segment is read back from the front of any byte string that begins with it. -/
@[simp] theorem readSegment?_segment {name : String} (h : Short name) (rest : Bytes) :
    readSegment? (segment name ++ rest) = some (name, rest) := by
  have htake : (segment name ++ rest).take 4 = Bytes.bigEndian 4 name.utf8ByteSize := by
    rw [segment, List.append_assoc]
    exact List.take_left' (Bytes.length_bigEndian 4 _)
  have hdrop : (segment name ++ rest).drop 4 = Bytes.ofText name ++ rest := by
    rw [segment, List.append_assoc]
    exact List.drop_left' (Bytes.length_bigEndian 4 _)
  have hlong : ¬ (segment name ++ rest).length < 4 := by simp [segment]
  unfold readSegment?
  simp only [hlong, if_false, htake, hdrop, ofBigEndian_length name h]
  rw [List.take_left' (Bytes.length_ofText name), List.drop_left' (Bytes.length_ofText name)]
  simp

theorem segment_ne_nil (name : String) : segment name ≠ [] := by simp [segment, Bytes.bigEndian]

theorem segment_append_inj {a b : String} (ha : Short a) (hb : Short b) {x y : Bytes} :
    segment a ++ x = segment b ++ y ↔ a = b ∧ x = y := by
  constructor
  · intro h
    have hread := congrArg readSegment? h
    rw [readSegment?_segment ha, readSegment?_segment hb] at hread
    simpa using hread
  · rintro ⟨rfl, rfl⟩
    rfl

theorem segment_inj {a b : String} (ha : Short a) (hb : Short b) :
    segment a = segment b ↔ a = b := by
  simpa using segment_append_inj ha hb (x := []) (y := [])

/-- The prefix of a name covers no longer neighbour. -/
theorem segment_prefix_iff {a b : String} (ha : Short a) (hb : Short b) {x : Bytes} :
    segment a <+: segment b ++ x ↔ a = b := by
  constructor
  · rintro ⟨rest, h⟩
    exact ((segment_append_inj ha hb).1 h).1
  · rintro rfl
    exact List.prefix_append _ _

/-! ### The five families -/

theorem bytes_client (id : Uuid) : (Key.client id).bytes = clients ++ id.bytes := rfl

theorem bytes_root (r : String) : (Key.root r).bytes = roots ++ Bytes.ofText r := rfl

theorem bytes_file (r p : String) :
    (Key.file r p).bytes = files ++ (segment r ++ segment p) := by
  simp [bytes, filesOf]

theorem bytes_version (r p : String) (t : UInt64) :
    (Key.version r p t).bytes
      = versions ++ (segment r ++ (segment p ++ Bytes.bigEndian 8 t.toNat)) := by
  simp [bytes, versionsAt, versionsOf]

theorem bytes_marker (r : String) (p : Option String) :
    (Key.marker r p).bytes = markers ++ (segment r ++ (p.map segment).getD []) := by
  cases p <;> simp [bytes]

theorem uuid_bytes_inj {a b : Uuid} : a.bytes = b.bytes ↔ a = b := by
  constructor
  · intro h
    have hvalue := (Bytes.bigEndian_inj (n := 16) a.value.isLt b.value.isLt).1 h
    cases a
    cases b
    exact congrArg Uuid.mk (BitVec.eq_of_toNat_eq hvalue)
  · rintro rfl
    rfl

theorem timestamp_lt (t : UInt64) : t.toNat < 256 ^ 8 := t.toNat_lt

theorem timestamp_bytes_inj {s t : UInt64} :
    Bytes.bigEndian 8 s.toNat = Bytes.bigEndian 8 t.toNat ↔ s = t := by
  rw [Bytes.bigEndian_inj (timestamp_lt s) (timestamp_lt t), UInt64.toNat_inj]

theorem marker_bytes_inj {r s : String} {p q : Option String} (hr : Short r) (hs : Short s)
    (hp : ∀ x ∈ p, Short x) (hq : ∀ x ∈ q, Short x) :
    (Key.marker r p).bytes = (Key.marker s q).bytes ↔ r = s ∧ p = q := by
  rw [bytes_marker, bytes_marker, List.append_cancel_left_eq, segment_append_inj hr hs]
  apply and_congr_right
  intro _
  cases p with
  | none =>
    cases q with
    | none => simp
    | some q => simpa using (segment_ne_nil q).symm
  | some p =>
    cases q with
    | none => simpa using segment_ne_nil p
    | some q => simpa using segment_inj (hp p rfl) (hq q rfl)

/-- Keys of short names are equal when their bytes are: the mark tells the family, and within
    a family each part can be read back. -/
theorem bytes_inj {k l : Key} (hk : k.Fits) (hl : l.Fits) : k.bytes = l.bytes ↔ k = l := by
  refine ⟨?_, congrArg bytes⟩
  intro h
  cases k with
  | client id =>
    cases l with
    | client id' => simpa [bytes_client, uuid_bytes_inj] using h
    | root | file | version | marker =>
      simp [bytes_client, bytes_root, bytes_file, bytes_version, bytes_marker, clients, roots,
        files, versions, markers] at h
  | root r =>
    cases l with
    | root r' => simpa [bytes_root] using h
    | client | file | version | marker =>
      simp [bytes_client, bytes_root, bytes_file, bytes_version, bytes_marker, clients, roots,
        files, versions, markers] at h
  | file r p =>
    cases l with
    | file r' p' =>
      rw [bytes_file, bytes_file, List.append_cancel_left_eq] at h
      obtain ⟨rfl, hpath⟩ := (segment_append_inj hk.1 hl.1).1 h
      obtain rfl := (segment_inj hk.2 hl.2).1 hpath
      rfl
    | client | root | version | marker =>
      simp [bytes_client, bytes_root, bytes_file, bytes_version, bytes_marker, clients, roots,
        files, versions, markers] at h
  | version r p t =>
    cases l with
    | version r' p' t' =>
      rw [bytes_version, bytes_version, List.append_cancel_left_eq] at h
      obtain ⟨rfl, hpath⟩ := (segment_append_inj hk.1 hl.1).1 h
      obtain ⟨rfl, htime⟩ := (segment_append_inj hk.2 hl.2).1 hpath
      obtain rfl := timestamp_bytes_inj.1 htime
      rfl
    | client | root | file | marker =>
      simp [bytes_client, bytes_root, bytes_file, bytes_version, bytes_marker, clients, roots,
        files, versions, markers] at h
  | marker r p =>
    cases l with
    | marker r' p' =>
      obtain ⟨rfl, rfl⟩ := (marker_bytes_inj hk.1 hl.1 hk.2 hl.2).1 h
      rfl
    | client | root | file | version =>
      simp [bytes_client, bytes_root, bytes_file, bytes_version, bytes_marker, clients, roots,
        files, versions, markers] at h

/-- The key of a root has no length in it, so it is told from every other key for any name. -/
theorem root_bytes_inj {r : String} {k : Key} : (Key.root r).bytes = k.bytes ↔ k = .root r := by
  refine ⟨?_, fun h => h ▸ rfl⟩
  intro h
  cases k with
  | root r' => simpa [bytes_root, eq_comm] using h
  | client | file | version | marker =>
    simp [bytes_client, bytes_root, bytes_file, bytes_version, bytes_marker, clients, roots,
      files, versions, markers] at h

/-! ### What the prefixes cover -/

theorem roots_prefix_iff {k : Key} : roots <+: k.bytes ↔ ∃ r, k = .root r := by
  cases k <;>
    simp [bytes_client, bytes_root, bytes_file, bytes_version, bytes_marker, clients, roots,
      files, versions, markers]

theorem files_prefix_iff {k : Key} : files <+: k.bytes ↔ ∃ r p, k = .file r p := by
  cases k <;>
    simp [bytes_client, bytes_root, bytes_file, bytes_version, bytes_marker, clients, roots,
      files, versions, markers]

theorem versions_prefix_iff {k : Key} : versions <+: k.bytes ↔ ∃ r p t, k = .version r p t := by
  cases k <;>
    simp [bytes_client, bytes_root, bytes_file, bytes_version, bytes_marker, clients, roots,
      files, versions, markers]

theorem markers_prefix_iff {k : Key} : markers <+: k.bytes ↔ ∃ r p, k = .marker r p := by
  cases k <;>
    simp [bytes_client, bytes_root, bytes_file, bytes_version, bytes_marker, clients, roots,
      files, versions, markers]

theorem versions_prefix_versionsAt {r p : String} : versions <+: versionsAt r p :=
  (List.prefix_append _ _).trans (List.prefix_append _ _)

theorem filesOf_prefix_iff {r : String} (hr : Short r) {k : Key} (hk : k.Fits) :
    filesOf r <+: k.bytes ↔ ∃ p, k = .file r p := by
  constructor
  · intro h
    obtain ⟨s, p, rfl⟩ := files_prefix_iff.1 ((List.prefix_append _ _).trans h)
    rw [bytes_file, filesOf, List.prefix_append_right_inj, segment_prefix_iff hr hk.1] at h
    exact ⟨p, h ▸ rfl⟩
  · rintro ⟨p, rfl⟩
    exact List.prefix_append _ _

theorem versionsOf_prefix_iff {r : String} (hr : Short r) {k : Key} (hk : k.Fits) :
    versionsOf r <+: k.bytes ↔ ∃ p t, k = .version r p t := by
  constructor
  · intro h
    obtain ⟨s, p, t, rfl⟩ := versions_prefix_iff.1 ((List.prefix_append _ _).trans h)
    rw [bytes_version, versionsOf, List.prefix_append_right_inj, segment_prefix_iff hr hk.1] at h
    exact ⟨p, t, h ▸ rfl⟩
  · rintro ⟨p, t, rfl⟩
    rw [bytes_version, versionsOf, List.prefix_append_right_inj]
    exact List.prefix_append _ _

theorem versionsAt_prefix_iff {r p : String} (hr : Short r) (hp : Short p) {k : Key}
    (hk : k.Fits) : versionsAt r p <+: k.bytes ↔ ∃ t, k = .version r p t := by
  constructor
  · intro h
    obtain ⟨q, t, rfl⟩ := (versionsOf_prefix_iff hr hk).1 ((List.prefix_append _ _).trans h)
    rw [bytes_version, versionsAt, versionsOf, List.append_assoc, List.prefix_append_right_inj,
      List.prefix_append_right_inj, segment_prefix_iff hp hk.2] at h
    exact ⟨t, h ▸ rfl⟩
  · rintro ⟨t, rfl⟩
    exact List.prefix_append _ _

/-! ### Order and reading -/

/-- The versions of one path stand in the order of their timestamps. -/
theorem version_lt_iff (r p : String) {s t : UInt64} :
    (Key.version r p s).bytes < (Key.version r p t).bytes ↔ s < t := by
  have hmono {s t : UInt64} (h : s < t) :
      (Key.version r p s).bytes < (Key.version r p t).bytes :=
    List.append_left_lt ((Bytes.bigEndian_lt_iff (timestamp_lt s) (timestamp_lt t)).2 h)
  refine ⟨?_, hmono⟩
  intro h
  rcases Nat.lt_trichotomy s.toNat t.toNat with hst | hst | hts
  · exact UInt64.lt_iff_toNat_lt.2 hst
  · obtain rfl := UInt64.toNat_inj.1 hst
    exact absurd h (List.lt_irrefl _)
  · have hback := hmono (UInt64.lt_iff_toNat_lt.2 hts)
    exact absurd (List.lt_trans h hback) (List.lt_irrefl _)

@[simp] theorem parseVersion?_bytes {r p : String} (hr : Short r) (hp : Short p) (t : UInt64) :
    parseVersion? (Key.version r p t).bytes = some (r, p, t) := by
  have hafter : after? versions (Key.version r p t).bytes
      = some (segment r ++ (segment p ++ Bytes.bigEndian 8 t.toNat)) := by
    simp [after?, bytes_version]
  have hnumber : Bytes.ofBigEndian (Bytes.bigEndian 8 t.toNat) = t.toNat := by
    rw [Bytes.ofBigEndian_bigEndian]
    exact Nat.mod_eq_of_lt (timestamp_lt t)
  unfold parseVersion?
  simp [hafter, hr, hp, hnumber]

@[simp] theorem parseFile?_bytes {r p : String} (hr : Short r) (hp : Short p) :
    parseFile? (Key.file r p).bytes = some (r, p) := by
  have hafter : after? files (Key.file r p).bytes = some (segment r ++ (segment p ++ [])) := by
    simp [after?, bytes_file]
  unfold parseFile?
  simp only [hafter, Option.bind_eq_bind, Option.bind_some, readSegment?_segment hr,
    readSegment?_segment hp]
  rfl

end Key

end SyncLedger
