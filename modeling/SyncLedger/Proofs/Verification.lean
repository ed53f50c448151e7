/-
  SyncLedger/Proofs/Verification.lean
  ===================================
  **The check of a root is sound and complete.**  A file is upheld if the newest version of its path
  says what the file says (`File.Upheld`); if it is not, one kind of damage is its fault
  (`File.Fault`), and no file has both.  One check decides between the two (`File.check_cases`), and
  the check of a root goes through the files in the order of their keys up to the first at fault
  (`Engine.checkEach_cases`).

  The table need not come from a run.  Hashes, timestamps and flags may be anything, and versions
  may be missing; all that is asked is that records can be read and stand under keys of their own.
-/
import SyncLedger.Proofs.Newest
import SyncLedger.Proofs.RootCascades
import SyncLedger.Proofs.Scopes

namespace SyncLedger

variable {t s : Records} {r : String} {f : File} {how : Damage} {fs : List File}

/-! ### One file -/

namespace File

/-- There is a version of the path, and the newest says what the file says; it removes the path if
    the file is a tombstone. -/
def Upheld (t : Records) (f : File) : Prop :=
  ∃ v, Newest t f.root f.path v ∧ v.hash = f.hash ∧ v.timestamp = f.timestamp ∧
    (f.present = false → v.removes f.path = true)

/-- What is wrong with a file that is not upheld. -/
inductive Fault (t : Records) (f : File) : Damage → Prop where
  | noHistory (h : ∀ ts, t.has (.version f.root f.path ts) = false) :
      Fault t f (.noHistory f.root f.path)
  | disagrees {v : Version} (h : Newest t f.root f.path v)
      (hdiffer : v.hash ≠ f.hash ∨ v.timestamp ≠ f.timestamp) :
      Fault t f (.disagrees f.root f.path f.hash f.timestamp v.hash v.timestamp)
  | notDeleted {v : Version} (h : Newest t f.root f.path v) (hhash : v.hash = f.hash)
      (htimestamp : v.timestamp = f.timestamp) (hgone : f.present = false)
      (hkept : v.removes f.path = false) : Fault t f (.tombstoneNotDeleted f.root f.path)

theorem Fault.not_upheld (h : f.Fault t how) : ¬ f.Upheld t := by
  rintro ⟨w, hw, hhash, htimestamp, hremoves⟩
  cases h with
  | noHistory h =>
    have hhas := hw.has
    rw [h] at hhas
    contradiction
  | disagrees hv hdiffer =>
    obtain rfl := hv.unique hw
    exact hdiffer.elim (· hhash) (· htimestamp)
  | notDeleted hv _ _ hgone hkept =>
    obtain rfl := hv.unique hw
    rw [hremoves hgone] at hkept
    contradiction

/-- At most one thing is wrong with a file. -/
theorem Fault.unique {how' : Damage} (h : f.Fault t how) (h' : f.Fault t how') : how = how' := by
  have hnone {v : Version} (hv : Newest t f.root f.path v) :
      ¬ ∀ ts, t.has (.version f.root f.path ts) = false := by
    intro hall
    exact Bool.false_ne_true ((hall v.timestamp).symm.trans hv.has)
  cases h with
  | noHistory hall =>
    cases h' with
    | noHistory => rfl
    | disagrees hv => exact absurd hall (hnone hv)
    | notDeleted hv => exact absurd hall (hnone hv)
  | disagrees hv hdiffer =>
    cases h' with
    | noHistory hall => exact absurd hall (hnone hv)
    | disagrees hw =>
      obtain rfl := hv.unique hw
      rfl
    | notDeleted hw hhash htimestamp =>
      obtain rfl := hv.unique hw
      exact (hdiffer.elim (· hhash) (· htimestamp)).elim
  | notDeleted hv hhash htimestamp =>
    cases h' with
    | noHistory hall => exact absurd hall (hnone hv)
    | disagrees hw hdiffer =>
      obtain rfl := hv.unique hw
      exact (hdiffer.elim (· hhash) (· htimestamp)).elim
    | notDeleted => rfl

/-- The check of a file against the last of its versions passes if the file is upheld, and else
    says what is wrong with it. -/
theorem check_cases {vs : List Version} (h : Shelf t f.root f.path vs) :
    (f.Upheld t ∧ History.check f vs.getLast? = .ok ()) ∨
      ∃ how, f.Fault t how ∧ History.check f vs.getLast? = .error (.corrupted how) := by
  cases hlast : vs.getLast? with
  | none =>
    have hnone : ∀ ts, t.has (.version f.root f.path ts) = false := by
      intro ts
      rw [List.getLast?_eq_none_iff] at hlast
      rw [← Bool.not_eq_true, h.has_iff, hlast]
      simp
    exact Or.inr ⟨_, .noHistory hnone, rfl⟩
  | some v =>
    have hnewest : Newest t f.root f.path v := h.getLast?_eq_some_iff.1 hlast
    unfold History.check
    by_cases hdiffer : v.hash ≠ f.hash ∨ v.timestamp ≠ f.timestamp
    · exact Or.inr ⟨_, .disagrees hnewest hdiffer, if_pos hdiffer⟩
    · dsimp only
      rw [if_neg hdiffer]
      rw [not_or, not_not, not_not] at hdiffer
      obtain ⟨hhash, htimestamp⟩ := hdiffer
      cases hpresent : f.present with
      | true => exact Or.inl ⟨⟨v, hnewest, hhash, htimestamp, by simp [hpresent]⟩, rfl⟩
      | false =>
        cases hremoves : v.removes f.path with
        | true => exact Or.inl ⟨⟨v, hnewest, hhash, htimestamp, fun _ => hremoves⟩, rfl⟩
        | false =>
          exact Or.inr ⟨_, .notDeleted hnewest hhash htimestamp hpresent hremoves, rfl⟩

end File

/-! ### The files of a root -/

/-- The first file of a list that is not upheld, and what is wrong with it. -/
inductive FirstFault (t : Records) : List File → File → Damage → Prop where
  | here {f : File} {fs : List File} {how : Damage} (h : f.Fault t how) :
      FirstFault t (f :: fs) f how
  | later {f g : File} {fs : List File} {how : Damage} (hsound : g.Upheld t)
      (h : FirstFault t fs f how) : FirstFault t (g :: fs) f how

namespace FirstFault

theorem not_upheld (h : FirstFault t fs f how) : ¬ ∀ g ∈ fs, g.Upheld t := by
  induction h with
  | here h => exact fun hall => h.not_upheld (hall _ List.mem_cons_self)
  | later _ _ ih => exact fun hall => ih fun g hg => hall g (List.mem_cons_of_mem _ hg)

theorem unique {g : File} {how' : Damage} (h : FirstFault t fs f how)
    (h' : FirstFault t fs g how') : f = g ∧ how = how' := by
  induction h with
  | here h =>
    cases h' with
    | here h' => exact ⟨rfl, h.unique h'⟩
    | later hsound => exact absurd hsound h.not_upheld
  | later hsound _ ih =>
    cases h' with
    | here h' => exact absurd hsound h'.not_upheld
    | later _ h' => exact ih h'

end FirstFault

namespace Engine

/-- The files are checked one after another.  Either all are upheld, or the check stops at the first
    that is at fault. -/
theorem checkEach_cases (h : Filed t) (hfs : ∀ f ∈ fs, f.root = r) :
    ((∀ f ∈ fs, f.Upheld t) ∧ checkEach r fs t = ⟨[], .ok ()⟩) ∨
      ∃ f how, FirstFault t fs f how ∧ checkEach r fs t = ⟨[], .error (.corrupted how)⟩ := by
  induction fs with
  | nil => exact Or.inl ⟨by simp, rfl⟩
  | cons f fs ih =>
    obtain rfl := hfs f List.mem_cons_self
    obtain ⟨vs, hshelf⟩ := h.exists_shelf f.root f.path
    have hlatest : History.latest f.root f.path t = ⟨[], .ok vs.getLast?⟩ :=
      congrArg (Run.mk []) hshelf.answer_latest
    have hstep : checkEach f.root (f :: fs) t
        = (do Op.read fun _ => History.check f vs.getLast?; checkEach f.root fs : Op Unit) t := by
      conv_lhs => unfold checkEach
      rw [Op.bind_of_ok (congrArg Run.answer hlatest), hlatest]
      rfl
    rw [hstep]
    rcases File.check_cases hshelf with ⟨hupheld, hcheck⟩ | ⟨how, hfault, hcheck⟩
    · rw [Op.bind_of_ok (v := ()) (by rw [Op.read_apply, hcheck])]
      show (_ ∧ checkEach f.root fs t = _) ∨ ∃ _ _, _ ∧ checkEach f.root fs t = _
      rcases ih fun g hg => hfs g (List.mem_cons_of_mem f hg) with ⟨hall, hrun⟩ | ⟨g, how, hg, hrun⟩
      · exact Or.inl ⟨List.forall_mem_cons.2 ⟨hupheld, hall⟩, hrun⟩
      · exact Or.inr ⟨g, how, .later hupheld hg, hrun⟩
    · refine Or.inr ⟨f, how, .here hfault, ?_⟩
      rw [Op.bind_of_error (e := .corrupted how) (by rw [Op.read_apply, hcheck])]
      rfl

end Engine

theorem RootsInPlace.exists_fetch (h : RootsInPlace t) (hroot : t.has (.root r) = true) :
    ∃ x, t.fetch Codec.root (Key.root r).bytes = .ok (some x) := by
  obtain ⟨b, hb⟩ := Table.has_iff.1 hroot
  have hmem : ((Key.root r).bytes, b) ∈ t.under Key.roots :=
    Table.mem_under.2 ⟨Key.roots_prefix_iff.2 ⟨r, rfl⟩, hb⟩
  obtain ⟨x, hx, -⟩ := Option.map_eq_some_iff.1 (h _ hmem)
  exact ⟨x, Table.fetch_eq_some_iff.2 ⟨b, hb, hx⟩⟩

/-- The file records of a root, in the order of their keys. -/
structure FilesOf (t : Records) (r : String) (fs : List File) : Prop where
  keys : fs.map (·.key) = t.keysUnder (Key.filesOf r)
  root : ∀ f ∈ fs, f.root = r
  fetch : ∀ f ∈ fs, t.fetch Codec.file f.key = .ok (some f)
  scan : t.scan Codec.file (Key.filesOf r) = .ok (fs.map fun f => (f.key, f))

theorem FilesFiled.exists_filesOf (h : FilesFiled t) (r : String) : ∃ fs, FilesOf t r fs := by
  have hstarts : Key.files <+: Key.filesOf r := List.prefix_append _ _
  obtain ⟨fs, hscan⟩ := h.exists_scan hstarts
  have hstored : ∀ f ∈ fs, Key.filesOf r <+: f.key ∧ t.fetch Codec.file f.key = .ok (some f) :=
    fun f hf => (Table.mem_scan hscan).1 (List.mem_map.2 ⟨f, hf, rfl⟩)
  refine ⟨fs, ?_, ?_, fun f hf => (hstored f hf).2, hscan⟩
  · rw [← Table.map_fst_scan hscan, List.map_map]
    rfl
  · intro f hf
    obtain ⟨hk, hfetch⟩ := hstored f hf
    obtain ⟨⟨hr, hp⟩, -⟩ := h.of_fetch (hstarts.trans hk) hfetch
    exact ((Key.filesOf_prefix_file_iff hr hp).1 hk).symm

namespace FilesOf

theorem list (h : FilesOf t r fs) (hroot : t.has (.root r) = true) :
    Files.list (.root r) t = ⟨[], .ok fs⟩ := by
  refine (Files.listUnder_of_scan h.scan).trans (congrArg (fun fs => Run.mk [] (.ok fs)) ?_)
  rw [List.filter_eq_self]
  intro f hf
  rw [h.root f hf]
  exact hroot

/-- The three ways in which the check of a root ends. -/
theorem verifyRoot_cases (h : FilesOf t r fs) (hroots : RootsInPlace t) (hfiled : Filed t) :
    (t.has (.root r) = false ∧ Engine.verifyRoot r t = ⟨[], .error (.notFound (.root r))⟩) ∨
    (t.has (.root r) = true ∧ (∀ f ∈ fs, f.Upheld t) ∧
      Engine.verifyRoot r t = ⟨[], .ok fs.length⟩) ∨
    (t.has (.root r) = true ∧ ∃ f how, FirstFault t fs f how ∧
      Engine.verifyRoot r t = ⟨[], .error (.corrupted how)⟩) := by
  cases hroot : t.has (.root r) with
  | false =>
    have hnone := Table.fetch_eq_none_iff (c := Codec.root).2 (Table.has_eq_false_iff.1 hroot)
    have hget : Roots.get r t = ⟨[], .error (.notFound (.root r))⟩ := by
      rw [Roots.get, Op.read_apply, hnone]
      rfl
    refine Or.inl ⟨rfl, ?_⟩
    unfold Engine.verifyRoot
    rw [Op.bind_of_error (congrArg Run.answer hget), hget]
  | true =>
    obtain ⟨x, hx⟩ := hroots.exists_fetch hroot
    have hget : Roots.get r t = ⟨[], .ok x⟩ := by
      rw [Roots.get, Op.read_apply, hx]
      rfl
    have hrun : Engine.verifyRoot r t
        = (do Engine.checkEach r fs; return fs.length : Op Nat) t := by
      unfold Engine.verifyRoot
      rw [Op.bind_of_ok (congrArg Run.answer hget), hget]
      show Run.mk _ _ = _
      rw [Run.final, List.getLast?_nil, Option.getD_none,
        Op.bind_of_ok (congrArg Run.answer (h.list hroot)), h.list hroot]
      rfl
    rw [hrun]
    rcases Engine.checkEach_cases hfiled h.root with ⟨hall, hcheck⟩ | ⟨f, how, hfault, hcheck⟩
    · refine Or.inr (Or.inl ⟨rfl, hall, ?_⟩)
      rw [Op.bind_of_ok (congrArg Run.answer hcheck), hcheck]
      rfl
    · refine Or.inr (Or.inr ⟨rfl, f, how, hfault, ?_⟩)
      rw [Op.bind_of_error (congrArg Run.answer hcheck), hcheck]

/-- The check looks at the record of the root, at its files, and at the versions of their paths. -/
theorem agrees_verifyRoot (h : FilesOf t r fs)
    (hroot : s.get? (Key.root r).bytes = t.get? (Key.root r).bytes)
    (hfiles : ∀ k, Key.filesOf r <+: k → s.get? k = t.get? k)
    (hversions : ∀ f ∈ fs, ∀ k, Key.versionsAt r f.path <+: k → s.get? k = t.get? k) :
    Op.Agrees (Engine.verifyRoot r) s t := by
  have hscan : s.scan Codec.file (Key.filesOf r) = t.scan Codec.file (Key.filesOf r) :=
    congrArg (Table.decodeAll Codec.file) (Table.under_congr hfiles)
  have hlive : (fs.filter fun f => s.has (.root f.root))
      = fs.filter fun f => t.has (.root f.root) := by
    apply List.filter_congr
    intro f hf
    rw [h.root f hf, Table.has_congr hroot]
  have hlist := Files.listUnder_of_scan h.scan
  apply Engine.agrees_verifyRoot_of
  · exact Op.agrees_read (by rw [Table.fetch_congr hroot])
  · refine ⟨?_, congrArg Run.commits hlist⟩
    exact ((Files.listUnder_of_scan (hscan.trans h.scan)).trans (by rw [hlive])).trans hlist.symm
  · intro listed hlisted f hf
    have hmem : f ∈ fs := by
      rw [show (Files.list (.root r) t).answer = _ from congrArg Run.answer hlist,
        Except.ok.injEq] at hlisted
      exact (List.mem_filter.1 (hlisted ▸ hf)).1
    apply Op.agrees_read
    unfold Table.fetchLast Table.lastUnder?
    rw [Table.under_congr (hversions f hmem)]

end FilesOf

/-- **The check of a root accepts the consistent roots and no others.**  Over every table whose
    roots, files and versions can be read and stand under keys of their own: the root is not found
    just if it has no record; the number of its files is the answer just if each is upheld by the
    newest version of its path; and in every other case the answer says what is wrong with the first
    file, in the order of their keys, that is not.  Nothing is written, and no record of another
    root and no version of a path without a file has a part in the answer. -/
theorem verifyRoot_exact (hroots : RootsInPlace t) (hfiled : Filed t) (r : String) :
    ∃ fs, FilesOf t r fs ∧ (Engine.verifyRoot r t).commits = [] ∧
      (∀ m, (Engine.verifyRoot r t).answer = .error (.notFound m) ↔
        t.has (.root r) = false ∧ m = .root r) ∧
      (∀ n, (Engine.verifyRoot r t).answer = .ok n ↔
        t.has (.root r) = true ∧ n = (t.keysUnder (Key.filesOf r)).length ∧
          ∀ f ∈ fs, f.Upheld t) ∧
      (∀ how, (Engine.verifyRoot r t).answer = .error (.corrupted how) ↔
        t.has (.root r) = true ∧ ∃ f, FirstFault t fs f how) ∧
      (t.has (.root r) = true → (∀ f ∈ fs, f.Upheld t) ∨ ∃ f how, FirstFault t fs f how) ∧
      ∀ s : Records, s.get? (Key.root r).bytes = t.get? (Key.root r).bytes →
        (∀ k, Key.filesOf r <+: k → s.get? k = t.get? k) →
        (∀ p, t.has (.file r p) = true →
          ∀ k, Key.versionsAt r p <+: k → s.get? k = t.get? k) →
        Engine.verifyRoot r s = Engine.verifyRoot r t := by
  obtain ⟨fs, hfs⟩ := hfiled.files.exists_filesOf r
  have hcount : (t.keysUnder (Key.filesOf r)).length = fs.length := by
    rw [← hfs.keys, List.length_map]
  have hsame : ∀ s : Records, s.get? (Key.root r).bytes = t.get? (Key.root r).bytes →
      (∀ k, Key.filesOf r <+: k → s.get? k = t.get? k) →
      (∀ p, t.has (.file r p) = true → ∀ k, Key.versionsAt r p <+: k → s.get? k = t.get? k) →
      Engine.verifyRoot r s = Engine.verifyRoot r t := by
    intro s hroot hfiles hversions
    refine (hfs.agrees_verifyRoot hroot hfiles fun f hf => hversions f.path ?_).1
    obtain ⟨b, hb, -⟩ := Table.fetch_eq_some_iff.1 (hfs.fetch f hf)
    rw [File.key, hfs.root f hf] at hb
    exact Table.has_iff.2 ⟨b, hb⟩
  refine ⟨fs, hfs, ?_⟩
  rw [hcount]
  rcases hfs.verifyRoot_cases hroots hfiled with
    ⟨hroot, hrun⟩ | ⟨hroot, hall, hrun⟩ | ⟨hroot, f, how, hfault, hrun⟩
  · refine ⟨by rw [hrun], ?_, ?_, ?_, ?_, hsame⟩
    · simp [hrun, hroot, eq_comm]
    · simp [hrun, hroot]
    · simp [hrun, hroot]
    · simp [hroot]
  · have hnone : ∀ how, ¬ ∃ f, FirstFault t fs f how :=
      fun how ⟨f, hfault⟩ => hfault.not_upheld hall
    refine ⟨by rw [hrun], ?_, ?_, ?_, fun _ => Or.inl hall, hsame⟩
    · simp [hrun, hroot]
    · intro n
      rw [hrun, Except.ok.injEq, and_iff_right hroot, and_iff_left hall, eq_comm]
    · simp [hrun, hroot, hnone]
  · refine ⟨by rw [hrun], ?_, ?_, ?_, fun _ => Or.inr ⟨f, how, hfault⟩, hsame⟩
    · simp [hrun, hroot]
    · simp [hrun, hroot, hfault.not_upheld]
    · intro how'
      rw [hrun, Except.error.injEq, Error.corrupted.injEq, and_iff_right hroot]
      constructor
      · rintro rfl
        exact ⟨f, hfault⟩
      · rintro ⟨g, hg⟩
        exact (hfault.unique hg).2

/-! ### A run -/

namespace Session

/-- A file with a hash that none of its versions has. -/
def forged : File :=
  { root := "r", path := "b", hash := "x", timestamp := 2, present := true, metadata := {} }

/-- Two files of a root, the second of them forged. -/
def tampered : Records :=
  ((fresh plain).run shelf).records.insert (Key.file "r" "b").bytes (Codec.file.encode forged)

theorem tampered_filed : Filed tampered := by
  have hforged : forged.Fits := ⟨by decide, by decide, by decide, nofun⟩
  exact (stored_run plain shelf_fits).filed.insert_file hforged rfl rfl

end Session

/-- The check passes the first file and says how the second disagrees with its version. -/
theorem tampered_found :
    RootsInPlace Session.tampered ∧ Filed Session.tampered ∧
      (Engine.verifyRoot "r" Session.tampered).answer
        = .error (.corrupted (.disagrees "r" "b" "x" 2 "g" 2)) ∧
      ∃ fs f, FilesOf Session.tampered "r" fs ∧
        FirstFault Session.tampered fs f (.disagrees "r" "b" "x" 2 "g" 2) := by
  have hroots : RootsInPlace Session.tampered := by decide +kernel
  have hanswer : (Engine.verifyRoot "r" Session.tampered).answer
      = .error (.corrupted (.disagrees "r" "b" "x" 2 "g" 2)) := by decide +kernel
  obtain ⟨fs, hfs, -, -, -, hcorrupted, -⟩ :=
    verifyRoot_exact hroots Session.tampered_filed "r"
  obtain ⟨-, f, hfault⟩ := (hcorrupted _).1 hanswer
  exact ⟨hroots, Session.tampered_filed, hanswer, fs, f, hfs, hfault⟩

end SyncLedger
