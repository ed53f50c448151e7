/-
  SyncLedger/Proofs/Conflicts.lean
  ================================
  **What is met under a marker.**  A root that has a marker cannot be registered, and an observation
  at a path that has one, or from it, is a conflict, however often it is tried
  (`marked_scope_stays_closed`).  Of an observation that moves a file the state of the other path is
  read before the marker is met; so if that record is damaged, it is the damage that is reported.
  Records that can be read stay so (`FilesSound.run`).
-/
import SyncLedger.Proofs.Markers
import SyncLedger.Proofs.Memberships
import SyncLedger.Proofs.Visibility

namespace SyncLedger

variable {t u : Records} {o : Observation} {now : Instant} {k : Bytes}

/-! ### Conflicts -/

namespace Files

theorem ensureOpen_marked {r p : String} (h : t.has (.marker r (some p)) = true) :
    ensureOpen r p t = .error (.conflict (place r p) 0) := by
  unfold ensureOpen
  rw [Txn.bind_of_ok (Txn.has_eq_ok_iff.2 ⟨h, rfl⟩)]
  rfl

/-- An observation that would write at a path with a marker is a conflict. -/
theorem reconcile_marked {x : Root} {p : String} (now : Instant) (hwell : o.refusal? = none)
    (hx : t.fetch Codec.root (Key.root o.root).bytes = .ok (some x)) (hin : o.client ∈ x.members)
    (hmarked : t.has (.marker o.root (some p)) = true)
    (hp : o.path = p ∨ o.source? = some p ∧ ∃ current,
      t.fetch Codec.file (Key.file o.root o.path).bytes = .ok current) :
    ∃ q, ∀ stamp, reconcile { o with stamp } now t = .error (.conflict (place o.root q) 0) := by
  have hmember : (!x.members.contains o.client) = false := by
    simpa using hin
  -- the path comes first, whichever of the two has the marker that is known
  have hsteps (stamp : Stamp) (err : Error)
      (h : (ensureOpen o.root o.path t = .error err) ∨
        (ensureOpen o.root o.path t = .ok ((), t) ∧
          ∃ current, t.fetch Codec.file (Key.file o.root o.path).bytes = .ok current ∧
            sourceOf o t = .error err)) :
      reconcile { o with stamp } now t = .error err := by
    have hwell' : Observation.refusal? { o with stamp } = none := hwell
    unfold reconcile
    simp only [hwell']
    refine (Txn.bind_of_ok (Txn.require_eq_ok_iff.2 ⟨hx, rfl⟩)).trans ?_
    simp only [hmember, Bool.false_eq_true, if_false]
    rcases h with herr | ⟨hopen, current, hcurrent, herr⟩
    · exact Txn.bind_of_error herr
    · refine (Txn.bind_of_ok hopen).trans ?_
      refine (Txn.bind_of_ok (Txn.fetch_eq_ok_iff.2 ⟨hcurrent, rfl⟩)).trans ?_
      exact Txn.bind_of_error herr
  cases hpath : t.has (.marker o.root (some o.path)) with
  | true =>
    refine ⟨o.path, fun stamp => hsteps stamp _ (Or.inl ?_)⟩
    exact ensureOpen_marked hpath
  | false =>
    rcases hp with rfl | ⟨hsource, current, hcurrent⟩
    · rw [hmarked] at hpath
      contradiction
    · refine ⟨p, fun stamp => hsteps stamp _ (Or.inr ⟨?_, current, hcurrent, ?_⟩)⟩
      · exact ensureOpen_eq_ok_iff.2 ⟨hpath, rfl⟩
      · unfold sourceOf
        simp only [hsource]
        exact Txn.bind_of_error (ensureOpen_marked hmarked)

end Files

/-- A conflict that every attempt meets is the answer, whatever the budget. -/
theorem Attempt.run_conflict {key : String} {latest : UInt64}
    (h : ∀ stamp, Files.observe { o with stamp } now t = ⟨[], .error (.conflict key latest)⟩)
    (a : Attempt) (ha : ∃ stamp, a.observation = { o with stamp }) :
    a.run now t = ⟨[], .error (.conflict key latest)⟩ := by
  induction hn : a.left using Nat.strong_induction_on generalizing a with
  | _ n ih =>
    subst hn
    obtain ⟨stamp, hstamp⟩ := ha
    have hobserve : Files.observe a.observation now t = ⟨[], .error (.conflict key latest)⟩ :=
      hstamp ▸ h stamp
    rw [run]
    simp only [Op.attempt, hobserve]
    split
    · rename_i hdone
      rw [judge_done hdone]
    · rename_i next hnext
      obtain ⟨-, stamp', hstamp'⟩ := judge_again hnext
      have hrest := ih _ (left_of_judge hnext) next ⟨stamp', by rw [hstamp', hstamp]⟩ rfl
      show Run.mk ([] ++ (next.run now t).commits) (next.run now t).answer = _
      rw [hrest]
      rfl

/-- A root that has a marker is not registered. -/
theorem Engine.registerRoot_marked {c : Config} {e : Engine} (he : Engine.ofConfig c = .ok e)
    {r : String} (hr : r ≠ "") (hroot : t.has (.root r) = false)
    (hmarked : t.has (.marker r none) = true) (owner : String) {password : String}
    (hpassword : password ≠ "") (salt : Bytes) :
    e.registerRoot r owner password salt now t = ⟨[], .error (.conflict r 0)⟩ := by
  obtain ⟨secrets, hs, rfl⟩ := Engine.ofConfig_ok he
  obtain rfl := SecurityConfig.scheme_ok hs
  unfold Engine.registerRoot Roots.register
  rw [if_neg (by simpa using hr)]
  simp only [Password.hash_scheme _ salt hpassword]
  apply Op.commit_of_error
  rw [Txn.bind_of_ok (Txn.has_eq_ok_iff.2 ⟨hroot, rfl⟩)]
  refine (Txn.bind_of_ok (Txn.has_eq_ok_iff.2 ⟨hmarked, rfl⟩)).trans ?_
  rfl

/-! ### Files that can be read -/

/-- Every file record can be read, and what it says can be written again. -/
def FilesSound (t : Records) : Prop :=
  ∀ k b, Key.files <+: k → t.get? k = some b → ∃ f : File, f.Fits ∧ Codec.file.read? b = some f

namespace FilesSound

theorem fetch (h : FilesSound t) (hk : Key.files <+: k) : ∃ f, t.fetch Codec.file k = .ok f := by
  cases hget : t.get? k with
  | none => exact ⟨none, Table.fetch_eq_none_iff.2 hget⟩
  | some b =>
    obtain ⟨f, -, hread⟩ := h k b hk hget
    exact ⟨some f, Table.fetch_eq_some_iff.2 ⟨b, hget, hread⟩⟩

theorem of_fetch (h : FilesSound t) (hk : Key.files <+: k) {f : File}
    (hf : t.fetch Codec.file k = .ok (some f)) : f.Fits := by
  obtain ⟨b, hb, hread⟩ := Table.fetch_eq_some_iff.1 hf
  obtain ⟨g, hg, hread'⟩ := h k b hk hb
  obtain rfl : g = f := Option.some.inj (hread'.symm.trans hread)
  exact hg

theorem insert (h : FilesSound t) {b : Bytes}
    (hb : Key.files <+: k → ∃ f : File, f.Fits ∧ Codec.file.read? b = some f) :
    FilesSound (t.insert k b) := by
  intro l c hl hc
  rw [Table.get?_insert] at hc
  split at hc
  · rename_i hlk
    obtain rfl := Option.some.inj hc
    exact hb (hlk ▸ hl)
  · exact h l c hl hc

theorem insert_file (h : FilesSound t) {f : File} (hf : f.Fits) (k : Bytes) :
    FilesSound (t.insert k (Codec.file.encode f)) :=
  h.insert fun _ => ⟨f, hf, (Codec.restores_file hf).read?⟩

theorem insert_key (h : FilesSound t) {key : Key} (hkey : ∀ r p, key ≠ .file r p) (b : Bytes) :
    FilesSound (t.insert key.bytes b) := by
  apply h.insert
  intro hk
  obtain ⟨r, p, heq⟩ := Key.files_prefix_iff.1 hk
  exact absurd heq (hkey r p)

theorem hereditary : Hereditary FilesSound where
  sub hs h k b hk hb := h k b hk (hs k b hb)
  marker r p b h := h.insert_key (by simp) b

theorem registryWrite {r : String} (hs : RegistryWrite r t u) (h : FilesSound t) :
    FilesSound u := by
  intro k b hk hb
  rw [hs.get?_of_outside (Key.outside_of_files hk)] at hb
  exact h k b hk hb

theorem keeps_observe (ho : o.Fits) : Op.Keeps FilesSound (Files.observe o now) := by
  apply Op.keeps_commit
  intro t d s h hs
  have hfiles (p : String) : Key.files <+: (Key.file o.root p).bytes :=
    Key.files_prefix_iff.2 ⟨_, p, rfl⟩
  apply Files.reconcile_writes hs h
  · intro u v hu
    exact hu.insert_key (by simp) _
  · intro u ts hu
    exact hu.insert_file (f := o.fileAt ts) ⟨ho.root, ho.path, ho.hash, ho.metadata⟩ _
  · intro f hfetch
    have hf := h.of_fetch (hfiles o.path) hfetch
    exact h.insert_file (f := { f with metadata := o.metadata }) { hf with metadata := ho.metadata } _
  · intro p f _ _ hfetch
    have hf := h.of_fetch (hfiles p) hfetch
    constructor
    · intro u v hu
      exact hu.insert_key (by simp) _
    · intro u ts hu
      exact hu.insert_file (f := { f with hash := o.hash, timestamp := ts, present := false })
        { hf with hash := ho.hash } _

theorem serve {s : Session} {q : Call} (h : FilesSound s.records) (hq : q.Ordinary)
    (hfits : q.Fits) : FilesSound (s.serve q).2.records := by
  apply Session.keeps_serve _ _ _ _ hereditary.keeps_orphans _ _ h
  · intro r t u hu h
    exact registryWrite hu h
  · intro r t x _ _ _ h
    exact h.insert_key (by simp) _
  · intro r
    exact hereditary.keeps_removeRoot fun _ _ => registryWrite
  · intro r p
    exact hereditary.keeps_removeFile r p
  · intro o now hcall stamp
    have ho : o.Fits := by
      rcases hcall with rfl | rfl
      · exact hfits.1
      · exact hfits.1
    exact keeps_observe ⟨ho.root, ho.path, ho.hash, ho.metadata, ho.former⟩
  · rintro c rfl
    exact hq.elim

theorem run {s : Session} (h : FilesSound s.records) {qs : List Call}
    (hqs : ∀ q ∈ qs, q.Ordinary ∧ q.Fits) : FilesSound (s.run qs).records := by
  apply Session.keeps_run (P := fun s => FilesSound s.records) _ h
  intro q hq s hs
  exact hs.serve (hqs q hq).1 (hqs q hq).2

end FilesSound

/-- **A scope under a marker stays closed.**  Let markers stand only where their roots or files are
    gone, and let any calls but restarts be served.  Then every marker is still there, its root or
    file has not come back, and what its purge will erase was there at first as it is now.  A marked
    root cannot be registered; and a member's observation at a marked path, or from one, is a
    conflict, whether or not the root was removed and registered again in the meantime.  Where every
    file record could be read at first, every one still can. -/
theorem marked_scope_stays_closed {s : Session} (h : Detached s.records) {calls : List Call}
    (hcalls : ∀ q ∈ calls, q.Ordinary) :
    let u := (s.run calls).records
    (∀ m : Removal, s.records.contains m.key = true → m.Closed s.records u) ∧
    (∀ r, s.records.has (.marker r none) = true → r ≠ "" →
      ∀ c e, Engine.ofConfig c = .ok e → ∀ owner password salt now, password ≠ "" →
        e.registerRoot r owner password salt now u = ⟨[], .error (.conflict r 0)⟩) ∧
    (∀ r p, s.records.has (.marker r (some p)) = true →
      ∀ (o : Observation) now, o.root = r → o.refusal? = none → RootLists u r o.client →
        (o.path = p ∨ o.source? = some p ∧
          ∃ current, u.fetch Codec.file (Key.file r o.path).bytes = .ok current) →
        ∃ q, Files.observe o now u = ⟨[], .error (.conflict (place r q) 0)⟩ ∧
          ∀ e : Engine, e.recordEvent o now u = ⟨[], .error (.conflict (place r q) 0)⟩) ∧
    (FilesSound s.records → (∀ q ∈ calls, q.Fits) →
      ∀ r p, ∃ current, u.fetch Codec.file (Key.file r p).bytes = .ok current) := by
  intro u
  have hsealed : Sealed s.records u := h.sealed.run hcalls
  refine ⟨hsealed.closed, ?_, ?_, ?_⟩
  · intro r hmarked hr c e he owner password salt now hpassword
    have hclosed := hsealed.closed (.root r) hmarked
    exact Engine.registerRoot_marked he hr hclosed.gone hclosed.marked owner hpassword salt
  · rintro _ p hmarked o now rfl hwell ⟨x, hx, hin⟩ hp
    have hclosed := hsealed.closed (.path o.root p) hmarked
    obtain ⟨q, hq⟩ := Files.reconcile_marked now hwell hx hin hclosed.marked hp
    have hobserve (stamp : Stamp) : Files.observe { o with stamp } now u
        = ⟨[], .error (.conflict (place o.root q) 0)⟩ := Op.commit_of_error (hq stamp)
    exact ⟨q, hobserve o.stamp, fun e => Attempt.run_conflict hobserve _ ⟨o.stamp, rfl⟩⟩
  · intro hsound hfits r p
    have hsound' : FilesSound u := hsound.run fun q hq => ⟨hcalls q hq, hfits q hq⟩
    exact hsound'.fetch (Key.files_prefix_iff.2 ⟨r, p, rfl⟩)

/-! ### A run -/

namespace Session

/-- Two roots of which one has two files. -/
def twoRoots : List Call :=
  [.registerClient ⟨1⟩ "c" ⟨0, 0⟩, .registerRoot "q" "o" "s" [] ⟨0, 0⟩,
    .registerRoot "r" "o" "s" [] ⟨0, 0⟩, .joinRoot "r" ⟨1⟩ "s", seen "a" "h" 1 none,
    seen "b" "h" 2 none]

theorem twoRoots_fits : ∀ c ∈ twoRoots, c.Fits := by
  simp only [twoRoots, List.forall_mem_cons]
  have hroot : Short "q" ∧ Short "r" := by decide
  refine ⟨trivial, hroot.1, hroot.2, trivial, ?_, ?_, by simp⟩
  · exact seen_fits (by decide) (by decide) (by simp)
  · exact seen_fits (by decide) (by decide) (by simp)

/-- A file and a root have been taken out of use, and nothing has been purged yet. -/
def reserved : Session :=
  let t := ((fresh plain).run twoRoots).records
  { engine := plain, db := { records := Roots.detached "q" (Files.detached "r" "a" t) } }

/-- The root of the marked file is removed, registered again and written to. -/
def startedOver : List Call :=
  [.removeRoot "r", .registerRoot "r" "o" "s" [] ⟨0, 0⟩, .joinRoot "r" ⟨1⟩ "s",
    seen "b" "g" 3 none]

theorem reserved_detached : Detached reserved.records := by
  have hstored := stored_run plain twoRoots_fits
  have hdetached := Detached.of_unmarked hstored.filed.inPlace hstored.unmarked_prefix
  have hfile : Detached (Files.detached "r" "a" ((fresh plain).run twoRoots).records) := by
    apply hdetached.detachFile (r := "r") (p := "a") (by decide) (by decide) (v := ())
    exact Files.detach_eq (by decide +kernel) (by decide +kernel)
  exact hfile.replace (m := .root "q") (show Short "q" by decide) _

end Session

theorem reserved_after_starting_over :
    let s := Session.reserved
    let u := (s.run Session.startedOver).records
    let o : Observation :=
      { root := "r", path := "c", client := ⟨1⟩, hash := "h", stamp := .exact 4,
        renamedFrom := some "a" }
    Detached s.records ∧ (∀ q ∈ Session.startedOver, q.Ordinary) ∧ u.has (.root "r") = true ∧
      (Removal.path "r" "a").Closed s.records u ∧
      Removal.stepwise.registerRoot "q" "o" "s" [] ⟨0, 0⟩ u = ⟨[], .error (.conflict "q" 0)⟩ ∧
      ∃ q, Files.observe o ⟨0, 0⟩ u = ⟨[], .error (.conflict (place "r" q) 0)⟩ := by
  intro s u o
  have hordinary : ∀ q ∈ Session.startedOver, q.Ordinary := by
    simp only [Session.startedOver, List.forall_mem_cons]
    refine ⟨trivial, trivial, trivial, ⟨?_, ?_, ?_⟩, by simp⟩
    · decide
    · decide
    · simp
  obtain ⟨hclosed, hroot, hpath, -⟩ :=
    marked_scope_stays_closed Session.reserved_detached hordinary
  refine ⟨Session.reserved_detached, hordinary, by decide +kernel, ?_, ?_, ?_⟩
  · exact hclosed (.path "r" "a") (by decide +kernel)
  · exact hroot "q" (by decide +kernel) (by decide) Removal.stepwise.config _ rfl "o" "s" [] _
      (by decide)
  · have hlists : RootLists u "r" ⟨1⟩ := by
      have hmember : ((u.fetch Codec.root (Key.root "r").bytes).toOption.join.any
          fun x => x.members.contains ⟨1⟩) = true := by decide +kernel
      obtain ⟨x, hx, hin⟩ := (Option.any_eq_true _ _).1 hmember
      exact ⟨x, eq_ok_of_toOption (Option.join_eq_some_iff.1 hx), by simpa using hin⟩
    have hcurrent : ∃ current, u.fetch Codec.file (Key.file "r" "c").bytes = .ok current :=
      ⟨none, Table.fetch_eq_none_iff.2 (by decide +kernel)⟩
    obtain ⟨q, hobserve, -⟩ := hpath "r" "a" (by decide +kernel) o ⟨0, 0⟩ rfl (by decide +kernel)
      hlists (Or.inr ⟨by decide +kernel, hcurrent⟩)
    exact ⟨q, hobserve⟩

end SyncLedger
