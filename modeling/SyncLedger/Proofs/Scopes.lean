/-
  SyncLedger/Proofs/Scopes.lean
  =============================
  **What is listed is what is erased.**  The three scopes of a listing are read in three ways: all
  files and the files of a root by scans, the file of a path by a lookup.  Over a table whose file
  records stand under keys of their own (`FilesFiled`) they select from one list, the files of
  registered roots in the order of their keys (`Catalogued`).

  Erasing a scope goes through the list that was read at the beginning.  No removal in it touches
  the root or the record of a file that is still to come, so each file on the list is removed, and
  a key goes just if it is one of a listed file (`Erased`).
-/
import SyncLedger.Proofs.Conflicts
import SyncLedger.Proofs.Reached

namespace SyncLedger

variable {t s : Records} {r p : String} {k pre : Bytes} {f : File} {fs : List File}

/-- The key of a file. -/
def File.key (f : File) : Bytes := (Key.file f.root f.path).bytes

/-- Every file record can be read and stands under a key that names its root and its path. -/
def FilesFiled (t : Records) : Prop :=
  ∀ k b, Key.files <+: k → t.get? k = some b →
    ∃ f, Codec.file.read? b = some f ∧ Key.parseFile? k = some (f.root, f.path)

/-! ### Keys of a file -/

/-- A key that goes when a file is removed: its record, whatever stands under the prefix of its
    versions, and the marker of its removal. -/
def Key.ErasedAt (r p : String) (k : Bytes) : Prop :=
  k = (Key.file r p).bytes ∨ Key.versionsAt r p <+: k ∨ k = (Key.marker r (some p)).bytes

namespace Key.ErasedAt

theorem family (h : Key.ErasedAt r p k) :
    Key.files <+: k ∨ Key.versions <+: k ∨ Key.markers <+: k := by
  rcases h with rfl | h | rfl
  · exact Or.inl (Key.files_prefix_iff.2 ⟨r, p, rfl⟩)
  · exact Or.inr (Or.inl (Key.versions_prefix_versionsAt.trans h))
  · exact Or.inr (Or.inr (Key.markers_prefix_iff.2 ⟨r, some p, rfl⟩))

theorem not_root (r p q : String) : ¬ Key.ErasedAt r p (Key.root q).bytes := by
  intro h
  simpa [Key.files_prefix_iff, Key.versions_prefix_iff, Key.markers_prefix_iff] using h.family

theorem not_client (r p : String) (id : Uuid) : ¬ Key.ErasedAt r p (Key.client id).bytes := by
  intro h
  simpa [Key.files_prefix_iff, Key.versions_prefix_iff, Key.markers_prefix_iff] using h.family

theorem file_iff (hk : Key.files <+: k) :
    Key.ErasedAt r p k ↔ k = (Key.file r p).bytes := by
  refine or_iff_left ?_
  rintro (h | rfl)
  · have hversions := Key.versions_prefix_versionsAt.trans h
    exact absurd (List.prefix_of_prefix_length_le hk hversions (Nat.le_refl 2)) (by decide)
  · simp [Key.files_prefix_iff] at hk

theorem version_iff (hk : Key.versions <+: k) :
    Key.ErasedAt r p k ↔ Key.versionsAt r p <+: k := by
  constructor
  · rintro (rfl | h | rfl)
    · simp [Key.versions_prefix_iff] at hk
    · exact h
    · simp [Key.versions_prefix_iff] at hk
  · exact fun h => Or.inr (Or.inl h)

theorem marker_iff (hk : Key.markers <+: k) :
    Key.ErasedAt r p k ↔ k = (Key.marker r (some p)).bytes := by
  constructor
  · rintro (rfl | h | h)
    · simp [Key.markers_prefix_iff] at hk
    · have hversions := Key.versions_prefix_versionsAt.trans h
      exact absurd (List.prefix_of_prefix_length_le hk hversions (Nat.le_refl 2)) (by decide)
    · exact h
  · exact fun h => Or.inr (Or.inr h)

end Key.ErasedAt

namespace Files

theorem get?_removed_of_erased (h : Key.ErasedAt r p k) : (removed r p t).get? k = none := by
  unfold removed
  simp only [Table.get?_erase, Table.get?_eraseUnder]
  rcases h with h | h | h <;> simp [h]

theorem get?_removed_of_kept (h : ¬ Key.ErasedAt r p k) : (removed r p t).get? k = t.get? k := by
  unfold Key.ErasedAt at h
  push Not at h
  obtain ⟨hfile, hversions, hmarker⟩ := h
  simp [removed, Table.get?_erase, Table.get?_eraseUnder, hfile, hversions, hmarker]

/-! ### Several removals -/

/-- The table without several files, their versions and the markers of their removal. -/
def removedEach (fs : List File) (t : Records) : Records :=
  fs.foldl (fun t f => removed f.root f.path t) t

theorem removedEach_sub (fs : List File) (t : Records) : (removedEach fs t).Sub t := by
  induction fs generalizing t with
  | nil => exact fun _ _ h => h
  | cons f fs ih => exact (ih _).trans (removed_sub f.root f.path t)

theorem get?_removedEach_of_erased (hf : f ∈ fs) (hk : Key.ErasedAt f.root f.path k) :
    (removedEach fs t).get? k = none := by
  induction fs generalizing t with
  | nil => contradiction
  | cons g fs ih =>
    rcases List.mem_cons.1 hf with rfl | hf
    · exact (removedEach_sub fs _).get?_eq_none (get?_removed_of_erased hk)
    · exact ih hf

theorem get?_removedEach_of_kept (hk : ∀ f ∈ fs, ¬ Key.ErasedAt f.root f.path k) :
    (removedEach fs t).get? k = t.get? k := by
  induction fs generalizing t with
  | nil => rfl
  | cons f fs ih =>
    have hfirst := get?_removed_of_kept (t := t) (hk f List.mem_cons_self)
    exact (ih fun g hg => hk g (List.mem_cons_of_mem f hg)).trans hfirst

/-- Files that are there, each once, are removed one after another. -/
theorem outcome_removeEach (hdistinct : fs.Pairwise (·.key ≠ ·.key))
    (hthere : ∀ f ∈ fs, t.has (.root f.root) = true ∧ t.has (.file f.root f.path) = true)
    (batch n : Nat) :
    (removeEach batch fs n).outcome t = (.ok (n + fs.length), removedEach fs t) := by
  induction fs generalizing t n with
  | nil => rfl
  | cons f fs ih =>
    obtain ⟨hfirst, hrest⟩ := List.pairwise_cons.1 hdistinct
    obtain ⟨hroot, hfile⟩ := hthere f List.mem_cons_self
    -- the other files and their roots are still there
    have hleft : ∀ g ∈ fs, (removed f.root f.path t).has (.root g.root) = true ∧
        (removed f.root f.path t).has (.file g.root g.path) = true := by
      intro g hg
      have hother : ¬ Key.ErasedAt f.root f.path (Key.file g.root g.path).bytes := by
        rw [Key.ErasedAt.file_iff (Key.files_prefix_iff.2 ⟨_, _, rfl⟩)]
        exact (hfirst g hg).symm
      rw [Table.has_congr (get?_removed_of_kept (Key.ErasedAt.not_root _ _ _)),
        Table.has_congr (get?_removed_of_kept hother)]
      exact hthere g (List.mem_cons_of_mem f hg)
    unfold removeEach
    rw [Op.outcome_bind_ok (Op.outcome_attempt_of (outcome_remove hroot hfile batch))]
    have hcount : n + 1 + fs.length = n + (f :: fs).length := by
      rw [List.length_cons]
      omega
    exact hcount ▸ ih hrest hleft (n + 1)

end Files

/-! ### Reading files -/

theorem Filed.files (h : Filed t) : FilesFiled t := h.file

namespace FilesFiled

theorem sub (h : FilesFiled t) (hs : s.Sub t) : FilesFiled s :=
  fun k b hk hb => h k b hk (hs k b hb)

/-- A file stands under its own key, and its names are short. -/
theorem of_fetch (h : FilesFiled t) (hk : Key.files <+: k)
    (hf : t.fetch Codec.file k = .ok (some f)) : (Short f.root ∧ Short f.path) ∧ k = f.key := by
  obtain ⟨b, hb, hread⟩ := Table.fetch_eq_some_iff.1 hf
  obtain ⟨g, hg, hparse⟩ := h k b hk hb
  obtain rfl : g = f := Option.some.inj (hg.symm.trans hread)
  exact Key.parseFile?_eq_some_iff.1 hparse

theorem exists_scan (h : FilesFiled t) (hpre : Key.files <+: pre) :
    ∃ fs : List File, t.scan Codec.file pre = .ok (fs.map fun f => (f.key, f)) := by
  have hread : ∀ e ∈ t.under pre, ∃ f, Codec.file.read? e.2 = some f := by
    intro e he
    obtain ⟨hk, hv⟩ := Table.mem_under.1 he
    obtain ⟨f, hf, -⟩ := h e.1 e.2 (hpre.trans hk) hv
    exact ⟨f, hf⟩
  obtain ⟨es, hes⟩ := Table.exists_decodeAll hread
  have hscan : t.scan Codec.file pre = .ok es := hes
  have hkeys : ∀ e ∈ es, e = (e.2.key, e.2) := by
    intro e he
    obtain ⟨hk, hfetch⟩ := (Table.mem_scan hscan).1 he
    exact Prod.ext (h.of_fetch (hpre.trans hk) hfetch).2 rfl
  refine ⟨es.map (·.2), hscan.trans (congrArg Except.ok ?_)⟩
  rw [List.map_map]
  exact (List.map_id es).symm.trans (List.map_congr_left hkeys)

/-- The scan of a root gives the files of the root. -/
theorem scan_filesOf (h : FilesFiled t) {fs : List File}
    (hscan : t.scan Codec.file Key.files = .ok (fs.map fun f => (f.key, f))) (r : String) :
    t.scan Codec.file (Key.filesOf r)
      = .ok ((fs.filter fun f => decide (f.root = r)).map fun f => (f.key, f)) := by
  have hstarts : Key.files <+: Key.filesOf r := List.prefix_append _ _
  rw [Table.scan, Table.under_eq_filter t hstarts]
  rw [Table.decodeAll_filter _ hscan, List.filter_map]
  refine congrArg (fun fs : List File => Except.ok (fs.map fun f => (f.key, f)))
    (List.filter_congr ?_)
  intro f hf
  have hmem : (f.key, f) ∈ fs.map fun f => (f.key, f) := List.mem_map.2 ⟨f, hf, rfl⟩
  obtain ⟨hk, hfetch⟩ := (Table.mem_scan hscan).1 hmem
  obtain ⟨⟨hr, hp⟩, -⟩ := h.of_fetch hk hfetch
  rw [Bool.eq_iff_iff, decide_eq_true_iff]
  exact List.isPrefixOf_iff_prefix.trans ((Key.filesOf_prefix_file_iff hr hp).trans eq_comm)

end FilesFiled

theorem Files.listUnder_of_scan (h : t.scan Codec.file pre = .ok (fs.map fun f => (f.key, f))) :
    Files.listUnder pre t = ⟨[], .ok (fs.filter fun f => t.has (.root f.root))⟩ := by
  simp only [Files.listUnder, Op.read_apply, h]
  show (⟨[], .ok (((fs.map fun f => (f.key, f)).map (·.2)).filter _)⟩ : Run (List File)) = _
  rw [List.map_map]
  exact congrArg (fun fs : List File => (⟨[], .ok (fs.filter _)⟩ : Run (List File)))
    (List.map_id fs)

/-! ### The scopes of a listing -/

/-- A file of a registered root, as one of the file records has it. -/
def Registered (t : Records) (f : File) : Prop :=
  t.has (.root f.root) = true ∧ ∃ k, Key.files <+: k ∧ t.fetch Codec.file k = .ok (some f)

/-- The files on a list that a scope covers. -/
def Scope.part (scope : Scope) (fs : List File) : List File :=
  fs.filter fun f => scope.covers f.root f.path

/-- The files of registered roots, each once, in the order of their keys.  What is listed over a
    scope is the part of them that it covers. -/
structure Catalogued (t : Records) (all : List File) : Prop where
  mem_iff : ∀ f, f ∈ all ↔ Registered t f
  ordered : all.Pairwise (·.key < ·.key)
  everything : (Files.list .all).outcome t = (.ok all, t)
  list : ∀ scope : Scope, (Files.list scope).outcome t = (.ok (scope.part all), t)
  /-- The latest state of a path is the only file that is listed for it; if none is, the path is
      missing. -/
  latest : ∀ r p,
    (∃ f, (Files.latest r p).outcome t = (.ok f, t) ∧ (Scope.path r p).part all = [f]) ∨
    (∃ m, (Files.latest r p).outcome t = (.error (.notFound m), t) ∧
      (Scope.path r p).part all = [])

/-- The table that is left has lost what goes with each of the files, and no more. -/
structure Erased (t s : Records) (fs : List File) : Prop where
  file : ∀ f ∈ fs, s.has (.file f.root f.path) = false
  versions : ∀ f ∈ fs, s.under (Key.versionsAt f.root f.path) = []
  otherFiles : ∀ k, Key.files <+: k → (∀ f ∈ fs, k ≠ f.key) → s.get? k = t.get? k
  otherVersions : ∀ k, Key.versions <+: k →
    (∀ f ∈ fs, ¬ Key.versionsAt f.root f.path <+: k) → s.get? k = t.get? k
  otherMarkers : ∀ k, Key.markers <+: k →
    (∀ f ∈ fs, k ≠ (Key.marker f.root (some f.path)).bytes) → s.get? k = t.get? k
  roots : ∀ r, s.get? (Key.root r).bytes = t.get? (Key.root r).bytes
  clients : ∀ id, s.get? (Key.client id).bytes = t.get? (Key.client id).bytes

theorem File.pairwise_ne_of_lt (h : fs.Pairwise (·.key < ·.key)) :
    fs.Pairwise (·.key ≠ ·.key) := by
  refine h.imp ?_
  intro f g hlt heq
  exact List.lt_irrefl _ (heq ▸ hlt)

namespace FilesFiled

theorem mem_filter_iff {fs : List File}
    (hscan : t.scan Codec.file Key.files = .ok (fs.map fun f => (f.key, f))) :
    f ∈ fs.filter (fun f => t.has (.root f.root)) ↔ Registered t f := by
  rw [List.mem_filter, and_comm]
  refine and_congr_right fun _ => ⟨fun hf => ?_, ?_⟩
  · exact ⟨f.key, (Table.mem_scan hscan).1 (List.mem_map.2 ⟨f, hf, rfl⟩)⟩
  · rintro ⟨k, hk, hfetch⟩
    obtain ⟨g, hg, heq⟩ := List.mem_map.1 ((Table.mem_scan hscan).2 ⟨hk, hfetch⟩)
    obtain rfl : g = f := (Prod.ext_iff.1 heq).2
    exact hg

theorem ordered_of_scan {fs : List File}
    (hscan : t.scan Codec.file Key.files = .ok (fs.map fun f => (f.key, f))) :
    fs.Pairwise (·.key < ·.key) := by
  have hsorted := List.pairwise_map.2 (Table.pairwise_under t Key.files)
  rw [← Table.keysUnder, ← Table.map_fst_scan hscan, List.map_map, List.pairwise_map] at hsorted
  exact hsorted

section Path

variable {all : List File} (h : FilesFiled t) (hmem : ∀ f, f ∈ all ↔ Registered t f)
include h hmem

/-- A listed file of a path is the one under the key of the path. -/
theorem fetch_of_mem_part (hf : f ∈ (Scope.path r p).part all) :
    t.has (.root r) = true ∧ t.fetch Codec.file (Key.file r p).bytes = .ok (some f) := by
  obtain ⟨hin, hcovers⟩ := List.mem_filter.1 hf
  obtain ⟨rfl, rfl⟩ : f.root = r ∧ f.path = p := by simpa [Scope.covers] using hcovers
  obtain ⟨hroot, k, hk, hfetch⟩ := (hmem f).1 hin
  rw [(h.of_fetch hk hfetch).2] at hfetch
  exact ⟨hroot, hfetch⟩

theorem part_eq_singleton (hordered : all.Pairwise (·.key < ·.key))
    (hroot : t.has (.root r) = true)
    (hfetch : t.fetch Codec.file (Key.file r p).bytes = .ok (some f)) :
    (Scope.path r p).part all = [f] := by
  have hkey : Key.files <+: (Key.file r p).bytes := Key.files_prefix_iff.2 ⟨r, p, rfl⟩
  obtain ⟨⟨hr, hp⟩, hplace⟩ := h.of_fetch hkey hfetch
  obtain ⟨rfl, rfl⟩ := (Key.file_bytes_inj_of_short hr hp).1 hplace
  have hnodup : all.Nodup :=
    (File.pairwise_ne_of_lt hordered).imp fun hne heq => hne (congrArg File.key heq)
  have honly : ∀ g, g ∈ (Scope.path f.root f.path).part all ↔ g ∈ [f] := by
    intro g
    rw [List.mem_singleton]
    constructor
    · intro hg
      obtain ⟨-, hg⟩ := fetch_of_mem_part h hmem hg
      exact Option.some.inj (Except.ok.inj (hg.symm.trans hfetch))
    · rintro rfl
      exact List.mem_filter.2 ⟨(hmem g).2 ⟨hroot, _, hkey, hfetch⟩, by simp [Scope.covers]⟩
  have hperm := (List.perm_ext_iff_of_nodup (hnodup.filter _) (List.nodup_singleton f)).2 honly
  exact List.perm_singleton.1 hperm

/-- The latest state of a path is the one file of that path. -/
theorem latest_cases (hordered : all.Pairwise (·.key < ·.key)) (r p : String) :
    (∃ f, (Files.latest r p).outcome t = (.ok f, t) ∧ (Scope.path r p).part all = [f]) ∨
    (∃ m, (Files.latest r p).outcome t = (.error (.notFound m), t) ∧
      (Scope.path r p).part all = []) := by
  have hmiss (hmissing : t.has (.root r) = false ∨
      t.fetch Codec.file (Key.file r p).bytes = .ok none) :
      ∃ m, (Files.latest r p).outcome t = (.error (.notFound m), t) ∧
        (Scope.path r p).part all = [] := by
    obtain ⟨m, hm⟩ := Journal.StoredIn.latest_missing hmissing
    refine ⟨m, hm, List.eq_nil_iff_forall_not_mem.2 fun f hf => ?_⟩
    obtain ⟨hroot, hfetch⟩ := fetch_of_mem_part h hmem hf
    simp [hroot, hfetch] at hmissing
  cases hroot : t.has (.root r) with
  | false => exact Or.inr (hmiss (Or.inl hroot))
  | true =>
    cases hget : t.get? (Key.file r p).bytes with
    | none => exact Or.inr (hmiss (Or.inr (Table.fetch_eq_none_iff.2 hget)))
    | some b =>
      obtain ⟨f, hread, -⟩ := h _ b (Key.files_prefix_iff.2 ⟨r, p, rfl⟩) hget
      have hfetch := Table.fetch_eq_some_iff.2 ⟨b, hget, hread⟩
      exact Or.inl ⟨f, Journal.StoredIn.latest_there hroot hfetch,
        part_eq_singleton h hmem hordered hroot hfetch⟩

end Path

theorem exists_catalogue (h : FilesFiled t) : ∃ all, Catalogued t all := by
  obtain ⟨fs, hscan⟩ := h.exists_scan List.prefix_rfl
  have hmem (f : File) := mem_filter_iff (f := f) hscan
  have hordered := (ordered_of_scan hscan).filter fun f => t.has (.root f.root)
  have heverything := Op.outcome_of_run (Files.listUnder_of_scan hscan)
  have hlatest := h.latest_cases hmem hordered
  refine ⟨_, hmem, hordered, heverything, ?_, hlatest⟩
  intro scope
  cases scope with
  | all =>
    rw [Scope.part, List.filter_eq_self.2]
    · exact heverything
    · exact fun _ _ => rfl
  | root r =>
    have hroot := Op.outcome_of_run (Files.listUnder_of_scan (h.scan_filesOf hscan r))
    rw [List.filter_comm] at hroot
    exact hroot
  | path r p =>
    rcases hlatest r p with ⟨f, hf, hpart⟩ | ⟨m, hm, hpart⟩
    · rw [hpart]
      exact Journal.StoredIn.list_path_of_latest hf
    · rw [hpart]
      exact Journal.StoredIn.list_path_of_missing hm

end FilesFiled

/-! ### Erasing a scope -/

/-- What is left after several files are removed. -/
theorem Files.erased_removedEach (fs : List File) (t : Records) :
    Erased t (removedEach fs t) fs where
  file _ hf := Table.has_eq_false_iff.2 (get?_removedEach_of_erased hf (Or.inl rfl))
  versions _ hf := Table.under_eq_nil_iff.2 fun _ hk =>
    get?_removedEach_of_erased hf (Or.inr (Or.inl hk))
  otherFiles _ hk hother := get?_removedEach_of_kept fun f hf h =>
    hother f hf ((Key.ErasedAt.file_iff hk).1 h)
  otherVersions _ hk hother := get?_removedEach_of_kept fun f hf h =>
    hother f hf ((Key.ErasedAt.version_iff hk).1 h)
  otherMarkers _ hk hother := get?_removedEach_of_kept fun f hf h =>
    hother f hf ((Key.ErasedAt.marker_iff hk).1 h)
  roots r := get?_removedEach_of_kept fun _ _ => Key.ErasedAt.not_root _ _ r
  clients id := get?_removedEach_of_kept fun _ _ => Key.ErasedAt.not_client _ _ id

namespace Catalogued

variable {all : List File}

theorem key_of_mem (hc : Catalogued t all) (h : FilesFiled t) (hf : f ∈ all) :
    (Short f.root ∧ Short f.path) ∧ t.has (.root f.root) = true ∧
      t.fetch Codec.file f.key = .ok (some f) := by
  obtain ⟨hroot, k, hk, hfetch⟩ := (hc.mem_iff f).1 hf
  obtain ⟨hshort, rfl⟩ := h.of_fetch hk hfetch
  exact ⟨hshort, hroot, hfetch⟩

/-- Every file that is listed over a scope is removed. -/
theorem outcome_removeAll (hc : Catalogued t all) (h : FilesFiled t) (scope : Scope) (batch : Nat) :
    (Files.removeAll scope batch).outcome t
      = (.ok (scope.part all).length, Files.removedEach (scope.part all) t) := by
  have hdistinct : (scope.part all).Pairwise (·.key ≠ ·.key) :=
    File.pairwise_ne_of_lt (hc.ordered.filter _)
  have hthere : ∀ f ∈ scope.part all,
      t.has (.root f.root) = true ∧ t.has (.file f.root f.path) = true := by
    intro f hf
    obtain ⟨-, hroot, hfetch⟩ := hc.key_of_mem h (List.mem_filter.1 hf).1
    obtain ⟨b, hb, -⟩ := Table.fetch_eq_some_iff.1 hfetch
    exact ⟨hroot, Table.has_iff.2 ⟨b, hb⟩⟩
  unfold Files.removeAll
  rw [Op.outcome_bind_ok (hc.list scope), Files.outcome_removeEach hdistinct hthere, Nat.zero_add]

/-- Nothing is listed over a scope that has been erased. -/
theorem list_removedEach (hc : Catalogued t all) (h : FilesFiled t) (scope : Scope) :
    let s := Files.removedEach (scope.part all) t
    (Files.list scope).outcome s = (.ok [], s) := by
  intro s
  have hsub : s.Sub t := Files.removedEach_sub _ t
  have hleft : FilesFiled s := h.sub hsub
  obtain ⟨rest, hrest⟩ := hleft.exists_catalogue
  rw [hrest.list scope]
  refine congrArg (fun fs : List File => (Except.ok fs, s))
    (List.eq_nil_iff_forall_not_mem.2 fun f hf => ?_)
  obtain ⟨hin, hcovers⟩ := List.mem_filter.1 hf
  obtain ⟨-, hroot, hfetch⟩ := hrest.key_of_mem hleft hin
  obtain ⟨b, hb, hread⟩ := Table.fetch_eq_some_iff.1 hfetch
  -- the file was listed, so its record is gone
  have hroot' : t.has (.root f.root) = true := by
    rw [← hroot]
    exact (Table.has_congr ((Files.erased_removedEach _ t).roots f.root)).symm
  have hlisted : f ∈ scope.part all := by
    refine List.mem_filter.2 ⟨(hc.mem_iff f).2 ⟨hroot', f.key, ?_, ?_⟩, hcovers⟩
    · exact Key.files_prefix_iff.2 ⟨_, _, rfl⟩
    · exact Table.fetch_eq_some_iff.2 ⟨b, hsub _ _ hb, hread⟩
  have hgone : s.get? f.key = none := Files.get?_removedEach_of_erased hlisted (Or.inl rfl)
  rw [hgone] at hb
  contradiction

end Catalogued

/-- **What is listed over a scope is what is erased with it.**  Over every table whose file records
    stand under keys of their own, whatever orphans and markers it has, the three scopes list parts
    of one catalogue, and erasing a scope answers with the number of the files listed over it,
    leaves nothing listed over it, and takes what goes with these files and no other key. -/
theorem erased_as_listed (h : FilesFiled t) (e : Engine) :
    ∃ all, Catalogued t all ∧ ∀ scope : Scope, ∃ s,
      (e.removeAllFiles scope).outcome t = (.ok (scope.part all).length, s) ∧
      (Files.list scope).outcome s = (.ok [], s) ∧
      Erased t s (scope.part all) ∧
      (∀ q o, scope.covers q o = false →
        s.get? (Key.file q o).bytes = t.get? (Key.file q o).bytes) ∧
      ∀ q o ts, Short q → Short o → (∀ f ∈ scope.part all, ¬ (f.root = q ∧ f.path = o)) →
        s.get? (Key.version q o ts).bytes = t.get? (Key.version q o ts).bytes := by
  obtain ⟨all, hc⟩ := h.exists_catalogue
  refine ⟨all, hc, fun scope => ?_⟩
  have herased := Files.erased_removedEach (scope.part all) t
  refine ⟨_, hc.outcome_removeAll h scope e.batch, hc.list_removedEach h scope, herased, ?_, ?_⟩
  · intro q o hout
    apply herased.otherFiles _ (Key.files_prefix_iff.2 ⟨q, o, rfl⟩)
    intro f hf heq
    obtain ⟨hin, hcovers⟩ := List.mem_filter.1 hf
    obtain ⟨hr, hp⟩ := (hc.key_of_mem h hin).1
    obtain ⟨rfl, rfl⟩ := (Key.file_bytes_inj_of_short hr hp).1 heq
    rw [hout] at hcovers
    contradiction
  · intro q o ts hq ho hother
    apply herased.otherVersions _ (Key.versions_prefix_iff.2 ⟨q, o, ts, rfl⟩)
    intro f hf hk
    exact hother f hf ((Key.versionsAt_prefix_version_iff hq ho).1 hk)

/-! ### A run -/

namespace Session

/-- A file of a root that was never registered. -/
def stray : File :=
  { root := "z", path := "a", hash := "h", timestamp := 1, present := true, metadata := {} }

/-- Two files of a registered root, a stray file of another, and a marker of a third path. -/
def cluttered : Records :=
  (((fresh plain).run twoRoots).records.insert (Key.file "z" "a").bytes
    (Codec.file.encode stray)).insert (Key.marker "r" (some "c")).bytes
      (Codec.marker.encode ⟨"r", some "c"⟩)

theorem cluttered_filed : Filed cluttered := by
  have hstray : stray.Fits := ⟨by decide, by decide, by decide, nofun⟩
  exact ((stored_run plain twoRoots_fits).filed.insert_file hstray rfl rfl).insert_marker _ _ _

end Session

/-- Both files of the registered root are listed and erased; the stray one is neither. -/
theorem cluttered_erased :
    FilesFiled Session.cluttered ∧ Session.cluttered.has (.root "z") = false ∧
      ∃ s, (Session.plain.removeAllFiles .all).outcome Session.cluttered = (.ok 2, s) ∧
        (Files.list .all).outcome s = (.ok [], s) ∧
        Session.cluttered.has (.file "z" "a") = true ∧ s.has (.file "z" "a") = true := by
  have hfiled : FilesFiled Session.cluttered := Session.cluttered_filed.files
  have hroot : Session.cluttered.has (.root "z") = false := by decide +kernel
  have hfile : Session.cluttered.has (.file "z" "a") = true := by decide +kernel
  obtain ⟨all, hc, herase⟩ := erased_as_listed hfiled Session.plain
  obtain ⟨s, hremove, hlist, herased, -, -⟩ := herase .all
  have htwo : (Session.plain.removeAllFiles .all Session.cluttered).answer.toOption = some 2 := by
    decide +kernel
  rw [Op.answer_eq hremove] at htwo
  have hcount : (Scope.all.part all).length = 2 := Option.some.inj htwo
  refine ⟨hfiled, hroot, s, hcount ▸ hremove, hlist, hfile, ?_⟩
  rw [Table.has_congr (herased.otherFiles _ (Key.files_prefix_iff.2 ⟨_, _, rfl⟩) ?_)]
  · exact hfile
  · -- a listed file has a root
    intro f hf heq
    obtain ⟨hthere, -⟩ := (hc.mem_iff f).1 (List.mem_filter.1 hf).1
    obtain ⟨hz, -⟩ := (Key.file_bytes_inj_of_short (by decide) (by decide)).1 heq.symm
    rw [hz, hroot] at hthere
    exact Bool.false_ne_true hthere

end SyncLedger
