/-
  SyncLedger/Proofs/Journal.lean
  ==============================
  **The table as the image of a commit log.**  A journal gives for every path the versions
  committed for it, oldest first.  A table stores a journal (`Journal.StoredIn`) when

  * under the prefix of each path stand exactly its versions, in their order;
  * each path with a version has a file record, the image of its last version, and no other
    path has one;
  * the root of each such path is registered, and no removal is in progress.

  Adding a version and erasing paths have the expected effect on the journal
  (`StoredIn.record`, `StoredIn.erase`), and what concerns clients and roots only has none
  (`StoredIn.registryOnly`).
-/
import SyncLedger.Proofs.Codecs
import SyncLedger.Proofs.Operations

namespace SyncLedger

/-! ### Keys of a table -/

/-- Every key is the key of a record with short names. -/
def Keyed (t : Records) : Prop := ∀ k b, t.get? k = some b → ∃ key : Key, key.Fits ∧ key.bytes = k

theorem keyed_empty : Keyed .empty := by
  intro k b h
  simp at h

theorem get?_insert_key {t : Records} {key l : Key} (hkey : key.Fits) (hl : l.Fits) (b : Bytes) :
    (t.insert key.bytes b).get? l.bytes = if l = key then some b else t.get? l.bytes := by
  rw [Table.get?_insert]
  simp only [Key.bytes_inj hl hkey]

theorem Keyed.of_get? {s t : Records} (h : Keyed t)
    (hs : ∀ k b, s.get? k = some b →
      (∃ b', t.get? k = some b') ∨ ∃ key : Key, key.Fits ∧ key.bytes = k) : Keyed s := by
  intro k b hk
  rcases hs k b hk with ⟨b', hb'⟩ | hkey
  · exact h k b' hb'
  · exact hkey

/-- A root that is there has a short name. -/
theorem Keyed.short_root {t : Records} (h : Keyed t) {r : String} (hr : t.has (.root r) = true) :
    Short r := by
  obtain ⟨b, hb⟩ := Table.has_iff.1 hr
  obtain ⟨key, hkey, hbytes⟩ := h _ b hb
  rw [Key.root_bytes_inj.1 hbytes.symm] at hkey
  exact hkey

theorem Keyed.of_sub {s t : Records} (h : Keyed t) (hs : s.Sub t) : Keyed s :=
  h.of_get? fun k b hk => Or.inl ⟨b, hs k b hk⟩

theorem Keyed.insert {t : Records} (h : Keyed t) {k : Key} (hkey : k.Fits) (b : Bytes) :
    Keyed (t.insert k.bytes b) := by
  apply h.of_get?
  intro l c hl
  rw [Table.get?_insert] at hl
  split at hl
  · rename_i heq
    exact Or.inr ⟨k, hkey, heq.symm⟩
  · exact Or.inl ⟨c, hl⟩

/-- Tables of records with short names agree under a prefix when they agree at the keys of
    records. -/
theorem Keyed.under_congr {s t : Records} (hs : Keyed s) (ht : Keyed t) {p : Bytes}
    (h : ∀ key : Key, key.Fits → p <+: key.bytes → s.get? key.bytes = t.get? key.bytes) :
    s.under p = t.under p := by
  apply Table.under_congr
  intro k hk
  cases hsk : s.get? k with
  | some b =>
    obtain ⟨key, hfits, rfl⟩ := hs k b hsk
    rw [← h key hfits hk, hsk]
  | none =>
    cases htk : t.get? k with
    | none => rfl
    | some b =>
      obtain ⟨key, hfits, rfl⟩ := ht k b htk
      rw [← hsk, h key hfits hk, htk]

theorem Keyed.under_eq_nil {t : Records} (h : Keyed t) {p : Bytes}
    (hnone : ∀ key : Key, key.Fits → p <+: key.bytes → t.get? key.bytes = none) :
    t.under p = [] := by
  apply Table.under_eq_nil_iff.2
  intro k hk
  cases htk : t.get? k with
  | none => rfl
  | some b =>
    obtain ⟨key, hfits, rfl⟩ := h k b htk
    rw [← htk, hnone key hfits hk]

/-- Every root record begins with the path that its key names. -/
def RootsNamed (t : Records) : Prop :=
  ∀ r b, Short r → t.get? (Key.root r).bytes = some b → Codec.text.encode r <+: b

theorem RootsNamed.path_of_fetch {t : Records} (h : RootsNamed t) {path : String}
    (hpath : Short path) {r : Root}
    (hr : t.fetch Codec.root (Key.root path).bytes = .ok (some r)) : r.path = path := by
  obtain ⟨b, hb, hread⟩ := Table.fetch_eq_some_iff.1 hr
  exact Codec.path_of_read?_root hpath (h path b hpath hb) hread

theorem RootsNamed.of_sub {s t : Records} (h : RootsNamed t) (hs : s.Sub t) : RootsNamed s :=
  fun r b hr hb => h r b hr (hs _ b hb)

/-! ### Journals -/

/-- Whether a version belongs to the history of a path: it leads there, or leads away. -/
def Version.Touches (v : Version) (p : String) : Prop := p = v.after ∨ v.before = some p

instance (v : Version) (p : String) : Decidable (v.Touches p) :=
  inferInstanceAs (Decidable (_ ∨ _))

/-- The state that a version leaves a path in, but for what the client says of the file. -/
def Version.fileAt (v : Version) (p : String) (m : Metadata) : File :=
  { root := v.root, path := p, hash := v.hash, timestamp := v.timestamp,
    present := !v.removes p, metadata := m }

/-- The versions committed for each path of each root, oldest first. -/
abbrev Journal := String → String → List Version

namespace Journal

def empty : Journal := fun _ _ => []

/-- Adds a version to the history of every path that it touches. -/
def record (j : Journal) (v : Version) : Journal := fun r p =>
  if r = v.root ∧ v.Touches p then j r p ++ [v] else j r p

/-- Forgets the history of some paths. -/
def erase (j : Journal) (gone : String → String → Bool) : Journal := fun r p =>
  if gone r p then [] else j r p

/-- How a version stands in a table, under a path. -/
def entry (r p : String) (v : Version) : Bytes × Bytes :=
  ((Key.version r p v.timestamp).bytes, Codec.version.encode v)

/-- What the versions of one path have in common. -/
structure IsHistory (r p : String) (vs : List Version) : Prop where
  fits : ∀ v ∈ vs, v.Fits
  root : ∀ v ∈ vs, v.root = r
  touches : ∀ v ∈ vs, v.Touches p
  moves : ∀ v ∈ vs, v.before ≠ some v.after
  positive : ∀ v ∈ vs, 0 < v.timestamp
  increasing : vs.Pairwise (·.timestamp < ·.timestamp)

/-- The table holds the versions of the journal and the file records that follow from them,
    and nothing is being removed. -/
structure StoredIn (j : Journal) (t : Records) : Prop where
  keyed : Keyed t
  named : RootsNamed t
  unmarked : ∀ r p, (Key.marker r p).Fits → t.get? (Key.marker r p).bytes = none
  rooted : ∀ r p, Short r → Short p → j r p ≠ [] → t.has (.root r) = true
  history : ∀ r p, Short r → Short p → IsHistory r p (j r p)
  versions : ∀ r p, Short r → Short p →
    t.under (Key.versionsAt r p) = (j r p).map (entry r p)
  file : ∀ r p, Short r → Short p → ∃ m : Metadata, m.Fits ∧
    t.get? (Key.file r p).bytes = (j r p).getLast?.map fun v => Codec.file.encode (v.fileAt p m)

theorem isHistory_nil (r p : String) : IsHistory r p [] :=
  ⟨by simp, by simp, by simp, by simp, by simp, List.Pairwise.nil⟩

theorem storedIn_empty : empty.StoredIn .empty where
  keyed := keyed_empty
  named r b _ h := by simp at h
  unmarked _ _ _ := rfl
  rooted r p _ _ h := absurd rfl h
  history r p _ _ := isHistory_nil r p
  versions _ _ _ _ := rfl
  file _ _ _ _ := ⟨{}, by intro t ht; simp at ht, rfl⟩

/-- A version may follow a history whose timestamps it exceeds. -/
theorem IsHistory.append {r p : String} {vs : List Version} (h : IsHistory r p vs) {v : Version}
    (hfits : v.Fits) (hroot : v.root = r) (htouches : v.Touches p)
    (hmoves : v.before ≠ some v.after) (hpositive : 0 < v.timestamp)
    (hlate : ∀ w ∈ vs, w.timestamp < v.timestamp) : IsHistory r p (vs ++ [v]) := by
  have hall {q : Version → Prop} (hold : ∀ w ∈ vs, q w) (hnew : q v) :
      ∀ w ∈ vs ++ [v], q w := by
    intro w hw
    rcases List.mem_append.1 hw with hw | hw
    · exact hold w hw
    · exact (List.mem_singleton.1 hw) ▸ hnew
  exact ⟨hall h.fits hfits, hall h.root hroot, hall h.touches htouches, hall h.moves hmoves,
    hall h.positive hpositive,
    List.pairwise_append.2 ⟨h.increasing, by simp, by simpa using hlate⟩⟩

namespace StoredIn

variable {j : Journal} {t s : Records} {r p : String}

/-! ### Lookups -/

theorem get?_version (h : j.StoredIn t) (hr : Short r) (hp : Short p) {ts : UInt64} {b : Bytes} :
    t.get? (Key.version r p ts).bytes = some b ↔
      ∃ v ∈ j r p, v.timestamp = ts ∧ Codec.version.encode v = b := by
  have hunder : t.get? (Key.version r p ts).bytes = some b ↔
      ((Key.version r p ts).bytes, b) ∈ t.under (Key.versionsAt r p) := by
    rw [Table.mem_under]
    exact (and_iff_right (List.prefix_append _ _)).symm
  rw [hunder, h.versions r p hr hp, List.mem_map]
  constructor
  · rintro ⟨v, hv, hentry⟩
    obtain ⟨hkey, hvalue⟩ := Prod.ext_iff.1 hentry
    have hfits (u : UInt64) : (Key.version r p u).Fits := ⟨hr, hp⟩
    have hsame := (Key.bytes_inj (hfits v.timestamp) (hfits ts)).1 hkey
    simp only [Key.version.injEq, true_and] at hsame
    exact ⟨v, hv, hsame, hvalue⟩
  · rintro ⟨v, hv, rfl, rfl⟩
    exact ⟨v, hv, rfl⟩

theorem get?_version_of_late (h : j.StoredIn t) (hr : Short r) (hp : Short p) {ts : UInt64}
    (hlate : ∀ w ∈ j r p, w.timestamp < ts) : t.get? (Key.version r p ts).bytes = none := by
  cases hget : t.get? (Key.version r p ts).bytes with
  | none => rfl
  | some b =>
    obtain ⟨v, hv, hts, _⟩ := (h.get?_version hr hp).1 hget
    have hlt := hlate v hv
    rw [hts] at hlt
    exact absurd hlt (UInt64.lt_irrefl ts)

theorem fits_fileAt {v : Version} {m : Metadata} (hv : v.Fits) (hp : Short p) (hm : m.Fits) :
    (v.fileAt p m).Fits :=
  ⟨hv.root, hp, hv.hash, hm⟩

/-- A file record that is read is the image of the last version. -/
theorem fetch_file (h : j.StoredIn t) (hr : Short r) (hp : Short p) {f : File}
    (hf : t.fetch Codec.file (Key.file r p).bytes = .ok (some f)) :
    ∃ v m, (j r p).getLast? = some v ∧ m.Fits ∧ f = v.fileAt p m := by
  obtain ⟨b, hb, hread⟩ := Table.fetch_eq_some_iff.1 hf
  obtain ⟨m, hm, hget⟩ := h.file r p hr hp
  rw [hb, eq_comm, Option.map_eq_some_iff] at hget
  obtain ⟨v, hlast, rfl⟩ := hget
  have hv : v ∈ j r p := List.mem_of_getLast? hlast
  have hfits := fits_fileAt ((h.history r p hr hp).fits v hv) hp hm
  rw [(Codec.restores_file hfits).read?] at hread
  exact ⟨v, m, hlast, hm, (Option.some.inj hread).symm⟩

theorem fetch_file_none (h : j.StoredIn t) (hr : Short r) (hp : Short p)
    (hf : t.fetch Codec.file (Key.file r p).bytes = .ok none) : j r p = [] := by
  obtain ⟨m, _, hget⟩ := h.file r p hr hp
  rw [Table.fetch_eq_none_iff.1 hf, eq_comm, Option.map_eq_none_iff] at hget
  exact List.getLast?_eq_none_iff.1 hget

theorem has_file (h : j.StoredIn t) (hr : Short r) (hp : Short p) :
    t.has (.file r p) = true ↔ j r p ≠ [] := by
  obtain ⟨m, _, hget⟩ := h.file r p hr hp
  rw [Table.has_iff, hget]
  cases hlast : (j r p).getLast? with
  | none => simpa using hlast
  | some v =>
    have hne : j r p ≠ [] := by
      intro hnil
      simp [hnil] at hlast
    simp [hne]

/-- The greatest timestamp of a history is the last one. -/
theorem timestamp_le_last {vs : List Version} (h : IsHistory r p vs) {v : Version}
    (hlast : vs.getLast? = some v) : ∀ w ∈ vs, w.timestamp ≤ v.timestamp := by
  intro w hw
  obtain ⟨us, rfl⟩ := List.getLast?_eq_some_iff.1 hlast
  rcases List.mem_append.1 hw with hw | hw
  · have hlt := (List.pairwise_append.1 h.increasing).2.2 w hw v (by simp)
    exact UInt64.le_of_lt hlt
  · rw [List.mem_singleton.1 hw]
    exact UInt64.le_refl _

/-! ### What changes a journal -/

/-- A path whose version records stay has the same history. -/
theorem versions_congr (h : j.StoredIn t) (hs : Keyed s) (hr : Short r) (hp : Short p)
    (hsame : ∀ ts, s.get? (Key.version r p ts).bytes = t.get? (Key.version r p ts).bytes) :
    s.under (Key.versionsAt r p) = (j r p).map (entry r p) := by
  rw [← h.versions r p hr hp]
  apply hs.under_congr h.keyed
  intro key hkey hunder
  obtain ⟨ts, rfl⟩ := (Key.versionsAt_prefix_iff hr hp hkey).1 hunder
  exact hsame ts

/-- A version later than those of a path goes to the end of its history. -/
theorem versions_append (h : j.StoredIn t) (hs : Keyed s) (hr : Short r) (hp : Short p)
    {v : Version} (hlate : ∀ w ∈ j r p, w.timestamp < v.timestamp)
    (hnew : s.get? (Key.version r p v.timestamp).bytes = some (Codec.version.encode v))
    (hsame : ∀ ts, ts ≠ v.timestamp →
      s.get? (Key.version r p ts).bytes = t.get? (Key.version r p ts).bytes) :
    s.under (Key.versionsAt r p) = (j r p ++ [v]).map (entry r p) := by
  have hkey : (Key.version r p v.timestamp).Fits := ⟨hr, hp⟩
  have hcovers : Key.versionsAt r p <+: (entry r p v).1 := List.prefix_append _ _
  have hbeyond : ∀ e ∈ t.under (Key.versionsAt r p), e.1 < (entry r p v).1 := by
    intro e he
    rw [h.versions r p hr hp] at he
    obtain ⟨w, hw, rfl⟩ := List.mem_map.1 he
    exact (Key.version_lt_iff r p).2 (hlate w hw)
  have hunder : s.under (Key.versionsAt r p)
      = (t.insert (entry r p v).1 (entry r p v).2).under (Key.versionsAt r p) := by
    apply hs.under_congr (h.keyed.insert hkey _)
    intro key hfits hunder
    obtain ⟨ts, rfl⟩ := (Key.versionsAt_prefix_iff hr hp hfits).1 hunder
    by_cases hts : ts = v.timestamp
    · subst hts
      rw [hnew, Table.get?_insert, if_pos rfl]
      rfl
    · rw [hsame ts hts, get?_insert_key hkey hfits, if_neg (by simpa using hts)]
  rw [hunder, Table.under_insert_of_forall_lt _ hcovers hbeyond, h.versions r p hr hp,
    List.map_append]
  rfl

theorem record (h : j.StoredIn t) {v : Version} (hfits : v.Fits)
    (hmoves : v.before ≠ some v.after) (hpositive : 0 < v.timestamp)
    (hrooted : t.has (.root v.root) = true)
    (hlate : ∀ p, v.Touches p → ∀ w ∈ j v.root p, w.timestamp < v.timestamp) (hkeyed : Keyed s)
    (hversion : ∀ p, v.Touches p →
      s.get? (Key.version v.root p v.timestamp).bytes = some (Codec.version.encode v))
    (hfile : ∀ p, v.Touches p → ∃ m : Metadata, m.Fits ∧
      s.get? (Key.file v.root p).bytes = some (Codec.file.encode (v.fileAt p m)))
    (hsame : ∀ key : Key, key.Fits →
      (∀ p, v.Touches p → key ≠ .version v.root p v.timestamp ∧ key ≠ .file v.root p) →
      s.get? key.bytes = t.get? key.bytes) : (j.record v).StoredIn s where
  keyed := hkeyed
  named r b hr hb := by
    rw [hsame (.root r) hr (by simp)] at hb
    exact h.named r b hr hb
  unmarked r p hkey := by
    rw [hsame _ hkey (by simp)]
    exact h.unmarked r p hkey
  rooted r p hr hp hne := by
    rw [Table.has_congr (hsame (.root r) hr (by simp))]
    by_cases htouched : r = v.root ∧ v.Touches p
    · rw [htouched.1]
      exact hrooted
    · simp only [Journal.record, htouched, if_false] at hne
      exact h.rooted r p hr hp hne
  history r p hr hp := by
    unfold Journal.record
    split
    · rename_i htouched
      obtain ⟨rfl, htouches⟩ := htouched
      exact (h.history _ p hr hp).append hfits rfl htouches hmoves hpositive (hlate p htouches)
    · exact h.history r p hr hp
  versions r p hr hp := by
    unfold Journal.record
    split
    · rename_i htouched
      obtain ⟨rfl, htouches⟩ := htouched
      apply h.versions_append hkeyed hr hp (hlate p htouches) (hversion p htouches)
      intro ts hts
      apply hsame (.version v.root p ts) ⟨hr, hp⟩
      intro q _
      exact ⟨by simp [hts], by simp⟩
    · rename_i hfree
      apply h.versions_congr hkeyed hr hp
      intro ts
      apply hsame (.version r p ts) ⟨hr, hp⟩
      intro q hq
      refine ⟨?_, by simp⟩
      intro heq
      simp only [Key.version.injEq] at heq
      exact hfree ⟨heq.1, heq.2.1 ▸ hq⟩
  file r p hr hp := by
    unfold Journal.record
    split
    · rename_i htouched
      obtain ⟨rfl, htouches⟩ := htouched
      obtain ⟨m, hm, hget⟩ := hfile p htouches
      exact ⟨m, hm, by simpa using hget⟩
    · rename_i hfree
      obtain ⟨m, hm, hget⟩ := h.file r p hr hp
      refine ⟨m, hm, ?_⟩
      rw [← hget]
      apply hsame (.file r p) ⟨hr, hp⟩
      intro q hq
      refine ⟨by simp, ?_⟩
      intro heq
      simp only [Key.file.injEq] at heq
      exact hfree ⟨heq.1, heq.2 ▸ hq⟩

/-- What a client says of a file may be replaced. -/
theorem refresh (h : j.StoredIn t) (hr : Short r) (hp : Short p) {v : Version}
    (hlast : (j r p).getLast? = some v) {m : Metadata} (hm : m.Fits) :
    j.StoredIn (t.insert (Key.file r p).bytes (Codec.file.encode (v.fileAt p m))) := by
  have hfile : (Key.file r p).Fits := ⟨hr, hp⟩
  have hkeyed := h.keyed.insert hfile (Codec.file.encode (v.fileAt p m))
  have hsame {k : Key} (hkey : k.Fits) (hne : k ≠ .file r p) :
      (t.insert (Key.file r p).bytes (Codec.file.encode (v.fileAt p m))).get? k.bytes
        = t.get? k.bytes := by
    rw [get?_insert_key hfile hkey, if_neg hne]
  constructor
  case keyed => exact hkeyed
  case named =>
    intro q b hq hb
    rw [hsame (k := .root q) hq (by simp)] at hb
    exact h.named q b hq hb
  case unmarked =>
    intro q o hkey
    rw [hsame hkey (by simp)]
    exact h.unmarked q o hkey
  case rooted =>
    intro q o hq ho hne
    rw [Table.has_congr (hsame (k := .root q) hq (by simp))]
    exact h.rooted q o hq ho hne
  case history => exact h.history
  case versions =>
    intro q o hq ho
    apply h.versions_congr hkeyed hq ho
    intro ts
    exact hsame (k := .version q o ts) ⟨hq, ho⟩ (by simp)
  case file =>
    intro q o hq ho
    have hother : (Key.file q o).Fits := ⟨hq, ho⟩
    by_cases heq : Key.file q o = .file r p
    · simp only [Key.file.injEq] at heq
      obtain ⟨rfl, rfl⟩ := heq
      exact ⟨m, hm, by simp [hlast]⟩
    · rw [hsame hother heq]
      exact h.file q o hq ho

/-- Journals that agree at short names are stored alike. -/
theorem congr (h : j.StoredIn t) {i : Journal} (hi : ∀ r p, Short r → Short p → i r p = j r p) :
    i.StoredIn t where
  keyed := h.keyed
  named := h.named
  unmarked := h.unmarked
  rooted r p hr hp hne := h.rooted r p hr hp (hi r p hr hp ▸ hne)
  history r p hr hp := (hi r p hr hp).symm ▸ h.history r p hr hp
  versions r p hr hp := (hi r p hr hp).symm ▸ h.versions r p hr hp
  file r p hr hp := (hi r p hr hp).symm ▸ h.file r p hr hp

/-- What removes records of some paths, all of them, and keeps those of the others forgets the
    history of these paths. -/
theorem erase (h : j.StoredIn t) {gone : String → String → Bool} (hsub : s.Sub t)
    (hgone : ∀ r p, Short r → Short p → gone r p = true →
      s.get? (Key.file r p).bytes = none ∧ ∀ ts, s.get? (Key.version r p ts).bytes = none)
    (hkept : ∀ r p, Short r → Short p → gone r p = false →
      s.get? (Key.file r p).bytes = t.get? (Key.file r p).bytes ∧
      (∀ ts, s.get? (Key.version r p ts).bytes = t.get? (Key.version r p ts).bytes) ∧
      (t.has (.root r) = true → s.has (.root r) = true)) : (j.erase gone).StoredIn s where
  keyed := h.keyed.of_sub hsub
  named := h.named.of_sub hsub
  unmarked r p hkey := hsub.get?_eq_none (h.unmarked r p hkey)
  rooted r p hr hp hne := by
    unfold Journal.erase at hne
    split at hne
    · contradiction
    · rename_i hin
      exact (hkept r p hr hp (by simpa using hin)).2.2 (h.rooted r p hr hp hne)
  history r p hr hp := by
    unfold Journal.erase
    split
    · exact isHistory_nil r p
    · exact h.history r p hr hp
  versions r p hr hp := by
    unfold Journal.erase
    split
    · rename_i hout
      apply (h.keyed.of_sub hsub).under_eq_nil
      intro key hkey hunder
      obtain ⟨ts, rfl⟩ := (Key.versionsAt_prefix_iff hr hp hkey).1 hunder
      exact (hgone r p hr hp hout).2 ts
    · rename_i hin
      exact h.versions_congr (h.keyed.of_sub hsub) hr hp
        (hkept r p hr hp (by simpa using hin)).2.1
  file r p hr hp := by
    obtain ⟨m, hm, hget⟩ := h.file r p hr hp
    refine ⟨m, hm, ?_⟩
    unfold Journal.erase
    split
    · rename_i hout
      simpa using (hgone r p hr hp hout).1
    · rename_i hin
      rw [(hkept r p hr hp (by simpa using hin)).1, hget]

end StoredIn

end Journal

/-! ### Clients and roots -/

/-- The second table differs from the first in client and root records only, and has every root
    that the first has. -/
structure RegistryOnly (t s : Records) : Prop where
  same : ∀ k, ¬ Key.clients <+: k → ¬ Key.roots <+: k → s.get? k = t.get? k
  keyed : Keyed t → Keyed s
  named : RootsNamed t → RootsNamed s
  rooted : ∀ r, t.has (.root r) = true → s.has (.root r) = true

namespace RegistryOnly

variable {s t u : Records}

theorem refl (t : Records) : RegistryOnly t t := ⟨fun _ _ _ => rfl, id, id, fun _ => id⟩

theorem trans (h : RegistryOnly t s) (h' : RegistryOnly s u) : RegistryOnly t u where
  same k hc hr := (h'.same k hc hr).trans (h.same k hc hr)
  keyed := h'.keyed ∘ h.keyed
  named := h'.named ∘ h.named
  rooted r := h'.rooted r ∘ h.rooted r

theorem root_ne_client (r : String) (id : Uuid) : (Key.root r).bytes ≠ (Key.client id).bytes := by
  rw [Ne, Key.root_bytes_inj]
  simp

theorem insert_client (t : Records) (id : Uuid) (b : Bytes) :
    RegistryOnly t (t.insert (Key.client id).bytes b) where
  same k hc _ := by
    have hne : k ≠ (Key.client id).bytes := fun heq => hc (heq ▸ List.prefix_append _ _)
    simp [hne]
  keyed h := h.insert (k := .client id) trivial b
  named h r c hr hc := by
    rw [Table.get?_insert, if_neg (root_ne_client r id)] at hc
    exact h r c hr hc
  rooted r h := by
    simpa [Table.has, Table.contains, root_ne_client] using h

theorem erase_client (t : Records) (id : Uuid) :
    RegistryOnly t (t.erase (Key.client id).bytes) where
  same k hc _ := by
    have hne : k ≠ (Key.client id).bytes := fun heq => hc (heq ▸ List.prefix_append _ _)
    simp [hne]
  keyed h := by
    apply h.of_get?
    intro k b hk
    rw [Table.get?_erase] at hk
    split at hk
    · contradiction
    · exact Or.inl ⟨b, hk⟩
  named h r c hr hc := by
    rw [Table.get?_erase, if_neg (root_ne_client r id)] at hc
    exact h r c hr hc
  rooted r h := by
    simpa [Table.has, Table.contains, root_ne_client] using h

theorem insert_root {t : Records} {r : String} (hr : Short r) {b : Bytes}
    (hb : Codec.text.encode r <+: b) : RegistryOnly t (t.insert (Key.root r).bytes b) where
  same k _ hroot := by
    have hne : k ≠ (Key.root r).bytes := fun heq => hroot (heq ▸ List.prefix_append _ _)
    simp [hne]
  keyed h := h.insert (k := .root r) hr b
  named h q c hq hc := by
    rw [Table.get?_insert] at hc
    split at hc
    · rename_i heq
      obtain rfl : r = q := by simpa using Key.root_bytes_inj.1 heq
      obtain rfl : b = c := by simpa using hc
      exact hb
    · exact h q c hq hc
  rooted q h := by
    obtain ⟨c, hc⟩ := Table.has_iff.1 h
    rw [Table.has_iff, Table.get?_insert]
    split
    · exact ⟨b, rfl⟩
    · exact ⟨c, hc⟩

end RegistryOnly

theorem Journal.StoredIn.registryOnly {j : Journal} {s t : Records} (h : j.StoredIn t)
    (hs : RegistryOnly t s) : j.StoredIn s := by
  have hsame {k : Key} (hclient : ∀ id, k ≠ .client id) (hroot : ∀ r, k ≠ .root r) :
      s.get? k.bytes = t.get? k.bytes := by
    refine hs.same _ ?_ ?_
    · intro hstarts
      cases k <;> simp [Key.bytes_root, Key.bytes_file, Key.bytes_version, Key.bytes_marker,
        Key.clients, Key.roots, Key.files, Key.versions, Key.markers] at hstarts hclient
    · intro hstarts
      obtain ⟨r, rfl⟩ := Key.roots_prefix_iff.1 hstarts
      exact hroot r rfl
  constructor
  case keyed => exact hs.keyed h.keyed
  case named => exact hs.named h.named
  case unmarked =>
    intro r p hkey
    rw [hsame (by simp) (by simp)]
    exact h.unmarked r p hkey
  case rooted => exact fun r p hr hp hne => hs.rooted r (h.rooted r p hr hp hne)
  case history => exact h.history
  case versions =>
    intro r p hr hp
    apply h.versions_congr (hs.keyed h.keyed) hr hp
    intro ts
    exact hsame (by simp) (by simp)
  case file =>
    intro r p hr hp
    rw [hsame (by simp) (by simp)]
    exact h.file r p hr hp

end SyncLedger
