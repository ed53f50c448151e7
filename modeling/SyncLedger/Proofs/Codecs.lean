/-
  SyncLedger/Proofs/Codecs.lean
  =============================
  **Records are read back as they were written.**  A codec restores a value when reading undoes
  writing whatever bytes follow (`Codec.Restores`).  The parts restore whatever their width or
  their length prefix can hold, and a composite restores what its parts restore, so a record
  restores when its texts fit in eight bytes of length and its dates can be represented
  (`File.Storable`, `Version.Storable`).  The names in keys are shorter than that (`File.Fits`,
  `Version.Fits`).
-/
import SyncLedger.Record
import SyncLedger.Proofs.Dates
import SyncLedger.Proofs.Keys

namespace SyncLedger

/-- A text whose number of bytes fits in eight bytes. -/
def Held (s : String) : Prop := s.utf8ByteSize < 2 ^ 64

instance (s : String) : Decidable (Held s) := inferInstanceAs (Decidable (_ < _))

theorem Short.held {s : String} (h : Short s) : Held s := Nat.lt_trans h (by norm_num)

namespace Codec

variable {α β : Type}

/-- Reading undoes writing, whatever follows. -/
def Restores (c : Codec α) (v : α) : Prop := ∀ rest, c.decode (c.encode v ++ rest) = some (v, rest)

theorem Restores.read? {c : Codec α} {v : α} (h : c.Restores v) :
    c.read? (c.encode v) = some v := by
  have hdecode := h []
  rw [List.append_nil] at hdecode
  simp [Codec.read?, hdecode]

/-! ### Parts -/

theorem restores_word {n v : Nat} (h : v < 256 ^ n) : (word n).Restores v := by
  intro rest
  have hlong : ¬ (Bytes.littleEndian n v ++ rest).length < n := by simp
  have htake : (Bytes.littleEndian n v ++ rest).take n = Bytes.littleEndian n v :=
    List.take_left' (Bytes.length_littleEndian n v)
  have hdrop : (Bytes.littleEndian n v ++ rest).drop n = rest :=
    List.drop_left' (Bytes.length_littleEndian n v)
  simp only [word, hlong, if_false, htake, hdrop, Bytes.ofLittleEndian_littleEndian,
    Nat.mod_eq_of_lt h]

theorem Restores.via {c : Codec β} {out : α → β} {into : β → Option α} {v : α}
    (h : c.Restores (out v)) (hinto : into (out v) = some v) : (c.via out into).Restores v := by
  intro rest
  simp [Codec.via, h rest, hinto]

theorem Restores.pair {c : Codec α} {d : Codec β} {v : α} {w : β} (hc : c.Restores v)
    (hd : d.Restores w) : (c.pair d).Restores (v, w) := by
  intro rest
  simp [Codec.pair, hc _, hd _]

/-- The first part of a pair is read back whatever becomes of the second. -/
theorem Restores.fst_of_pair {c : Codec α} {d : Codec β} {v : α} (hc : c.Restores v)
    {rest left : Bytes} {w : α × β}
    (h : (c.pair d).decode (c.encode v ++ rest) = some (w, left)) : w.1 = v := by
  simp only [Codec.pair, hc rest, Option.bind_some, Option.map_eq_some_iff] at h
  obtain ⟨⟨u, left⟩, _, h⟩ := h
  exact congrArg (fun x => x.1.1) h.symm

/-- After the first part of a pair the second is read. -/
theorem Restores.snd_of_pair {c : Codec α} {d : Codec β} {v : α} (hc : c.Restores v)
    {rest left : Bytes} {w : α × β}
    (h : (c.pair d).decode (c.encode v ++ rest) = some (w, left)) :
    d.decode rest = some (w.2, left) := by
  simp only [Codec.pair, hc rest, Option.bind_some, Option.map_eq_some_iff] at h
  obtain ⟨⟨u, left'⟩, hd, h⟩ := h
  simp only [Prod.mk.injEq] at h
  obtain ⟨rfl, rfl⟩ := h
  exact hd

theorem restores_u64 (v : UInt64) : u64.Restores v :=
  (restores_word v.toNat_lt).via (by simp)

theorem restores_u32 (v : UInt32) : u32.Restores v :=
  (restores_word v.toNat_lt).via (by simp)

theorem restores_blob {v : Bytes} (h : v.length < 2 ^ 64) : blob.Restores v := by
  intro rest
  have hlength := restores_word (n := 8) h (v ++ rest)
  simp [blob, hlength, take?]

theorem restores_held {v : String} (h : Held v) : text.Restores v := by
  refine (restores_blob ?_).via (Bytes.text?_ofText v)
  rw [Bytes.length_ofText]
  exact h

theorem restores_text {v : String} (h : Short v) : text.Restores v := restores_held h.held

theorem restores_bool (v : Bool) : bool.Restores v := by
  cases v
  · exact (restores_word (by norm_num)).via rfl
  · exact (restores_word (by norm_num)).via rfl

theorem restores_option {c : Codec α} {v : Option α} (h : ∀ w ∈ v, c.Restores w) :
    c.option.Restores v := by
  intro rest
  cases v with
  | none => rfl
  | some w => simp [option, h w rfl rest]

theorem restores_uuid (v : Uuid) : uuid.Restores v := by
  refine (restores_blob (by simp [Uuid.bytes])).via ?_
  have hlength : v.bytes.length = 16 := Bytes.length_bigEndian 16 _
  have hnumber : Bytes.ofBigEndian v.bytes = v.value.toNat := by
    rw [Uuid.bytes, Bytes.ofBigEndian_bigEndian]
    exact Nat.mod_eq_of_lt v.value.isLt
  rw [Uuid.ofBytes?, if_pos hlength, hnumber, BitVec.ofNat_toNat, BitVec.setWidth_eq]

theorem restores_instant {t : Instant} (h : t.Representable) : instant.Restores t :=
  (restores_text (Instant.utf8ByteSize_text_lt h)).via (Instant.parse?_text h)

theorem restores_change (v : Change) : change.Restores v := by
  cases v
  all_goals exact (restores_word (by decide)).via rfl

end Codec

/-! ### Records -/

/-- What a client says of a file can be stored. -/
def Metadata.Fits (m : Metadata) : Prop := ∀ t ∈ m.modified, t.Representable

/-- The texts of a file record can be stored. -/
structure File.Storable (f : File) : Prop where
  root : Held f.root
  path : Held f.path
  hash : Held f.hash
  metadata : f.metadata.Fits

/-- The texts of a version can be stored. -/
structure Version.Storable (v : Version) : Prop where
  root : Held v.root
  before : ∀ p ∈ v.before, Held p
  after : Held v.after
  date : v.date.Representable
  hash : Held v.hash

/-- The texts of a marker can be stored. -/
structure Marker.Storable (m : Marker) : Prop where
  root : Held m.root
  path : ∀ p ∈ m.path, Held p

/-- The names of a file record are short and its dates can be represented. -/
structure File.Fits (f : File) : Prop where
  root : Short f.root
  path : Short f.path
  hash : Short f.hash
  metadata : f.metadata.Fits

/-- The names of a version are short and its date can be represented. -/
structure Version.Fits (v : Version) : Prop where
  root : Short v.root
  before : ∀ p ∈ v.before, Short p
  after : Short v.after
  date : v.date.Representable
  hash : Short v.hash

theorem File.Fits.storable {f : File} (h : f.Fits) : f.Storable where
  root := h.root.held
  path := h.path.held
  hash := h.hash.held
  metadata := h.metadata

theorem Version.Fits.storable {v : Version} (h : v.Fits) : v.Storable where
  root := h.root.held
  before p hp := (h.before p hp).held
  after := h.after.held
  date := h.date
  hash := h.hash.held

namespace Codec

theorem restores_metadata {m : Metadata} (h : m.Fits) : metadata.Restores m := by
  have hmodified : instant.option.Restores m.modified :=
    restores_option fun t ht => restores_instant (h t ht)
  unfold metadata
  refine Restores.via ?_ rfl
  exact hmodified.pair ((restores_u64 _).pair (restores_u32 _))

theorem restores_storable_file {f : File} (h : f.Storable) : file.Restores f := by
  unfold file
  refine Restores.via ?_ rfl
  exact (restores_held h.root).pair <| (restores_held h.path).pair <|
    (restores_held h.hash).pair <| (restores_u64 f.timestamp).pair <|
    (restores_bool f.present).pair (restores_metadata h.metadata)

theorem restores_file {f : File} (h : f.Fits) : file.Restores f :=
  restores_storable_file h.storable

theorem restores_storable_version {v : Version} (h : v.Storable) : version.Restores v := by
  have hbefore : text.option.Restores v.before :=
    restores_option fun p hp => restores_held (h.before p hp)
  unfold version
  refine Restores.via ?_ rfl
  exact (restores_held h.root).pair <| hbefore.pair <| (restores_held h.after).pair <|
    (restores_instant h.date).pair <| (restores_uuid v.client).pair <|
    (restores_u64 v.timestamp).pair <| (restores_held h.hash).pair (restores_change v.change)

theorem restores_version {v : Version} (h : v.Fits) : version.Restores v :=
  restores_storable_version h.storable

theorem restores_storable_marker {m : Marker} (h : m.Storable) : marker.Restores m := by
  have hpath : text.option.Restores m.path :=
    restores_option fun p hp => restores_held (h.path p hp)
  unfold marker
  refine Restores.via ?_ rfl
  exact (restores_held h.root).pair hpath

theorem restores_marker {m : Marker} (hr : Short m.root) (hp : ∀ p ∈ m.path, Short p) :
    marker.Restores m :=
  restores_storable_marker ⟨hr.held, fun p h => (hp p h).held⟩

theorem text_prefix_root (r : Root) : text.encode r.path <+: root.encode r :=
  List.prefix_append _ _

/-- What the stored form of a root starts with determines its path. -/
theorem path_of_read?_root {path : String} (hpath : Short path) {b : Bytes}
    (hb : text.encode path <+: b) {r : Root} (h : root.read? b = some r) : r.path = path := by
  obtain ⟨rest, rfl⟩ := hb
  simp only [root, via, read?, Option.map_bind, Option.bind_eq_some_iff, Function.comp_def,
    Option.map_some, Option.some.injEq] at h
  obtain ⟨⟨w, left⟩, hw, rfl⟩ := h
  exact (restores_text hpath).fst_of_pair hw

/-- A file record that can be read back at all has the root and the path that were written. -/
theorem place_of_read?_file {f g : File} (hroot : Short f.root) (hpath : Short f.path)
    (h : file.read? (file.encode f) = some g) : g.root = f.root ∧ g.path = f.path := by
  simp only [file, via, read?, Option.map_bind, Option.bind_eq_some_iff, Function.comp_def,
    Option.map_some, Option.some.injEq] at h
  obtain ⟨⟨w, left⟩, hw, rfl⟩ := h
  have hrest := (restores_text hroot).snd_of_pair hw
  exact ⟨(restores_text hroot).fst_of_pair hw, (restores_text hpath).fst_of_pair hrest⟩

end Codec

end SyncLedger
