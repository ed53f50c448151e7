/-
  SyncLedger/Proofs/Failures.lean
  ===============================
  **What fails changes nothing.**  An operation either fails in its first transaction, before
  anything is committed, or cannot fail any more (`Op.Atomic.bind_total`).  After the transaction
  that takes a client, a root or a file out of use come only purges, which cannot fail, and steps
  whose failures are passed over.

  Two operations remove many things one after another and still fail as a whole.  The removal of
  files meets no other failure than a file that is gone.  The removal of clients reads every client
  record before it begins, so that none of them can stop it later (`Clients.atomic_removeAll`).  The
  removal of all roots is not of this kind: it is stopped by a member that cannot be read.
-/
import SyncLedger.Proofs.KeyReading
import SyncLedger.Proofs.Sessions

namespace SyncLedger

variable {t : Records} {batch : Nat}

/-! ### Readers -/

namespace Clients

theorem quiet_get (id : Uuid) : Op.Quiet (get id) := Op.quiet_read _

theorem quiet_list : Op.Quiet list := Op.quiet_read _

end Clients

namespace Roots

theorem quiet_get (r : String) : Op.Quiet (get r) := Op.quiet_read _

theorem quiet_list : Op.Quiet list := Op.quiet_read _

theorem quiet_members (r : String) : Op.Quiet (members r) :=
  (quiet_get r).bind fun _ => Op.quiet_pure _

theorem quiet_authorize (r : String) (id : Uuid) : Op.Quiet (authorize r id) := by
  apply (quiet_get r).bind
  intro x
  split
  · exact Op.quiet_pure x
  · exact Op.quiet_fail _

end Roots

namespace Files

theorem quiet_latest (r p : String) : Op.Quiet (latest r p) := Op.quiet_read _

theorem quiet_list (scope : Scope) : Op.Quiet (list scope) := by
  cases scope with
  | all | root => exact Op.quiet_read _
  | path r p =>
    apply (quiet_latest r p).attempt.bind
    intro answer
    split
    · exact Op.quiet_pure _
    · exact Op.quiet_pure _
    · exact Op.quiet_fail _

end Files

namespace History

theorem quiet_get (r p : String) (ts : UInt64) : Op.Quiet (get r p ts) := Op.quiet_read _

theorem quiet_latest (r p : String) : Op.Quiet (latest r p) := Op.quiet_read _

theorem quiet_list (scope : Scope) : Op.Quiet (list scope) := Op.quiet_read _

end History

namespace Engine

theorem quiet_download (e : Engine) (contents : Contents) (r p : String) (ts : UInt64) :
    Op.Quiet (e.download contents r p ts) := by
  apply (History.quiet_get r p ts).bind
  intro v
  split
  · exact Op.quiet_fail _
  · split
    · exact Op.quiet_pure _
    · exact Op.quiet_fail _
    · exact Op.quiet_fail _

theorem quiet_checkEach (r : String) (fs : List File) : Op.Quiet (checkEach r fs) := by
  induction fs with
  | nil => exact Op.quiet_pure ()
  | cons f fs ih =>
    apply (History.quiet_latest r f.path).bind
    intro newest
    exact (Op.quiet_read _).bind fun _ => ih

theorem quiet_verifyRoot (r : String) : Op.Quiet (verifyRoot r) := by
  apply (Roots.quiet_get r).bind
  intro _
  apply (Files.quiet_list (.root r)).bind
  intro fs
  exact (quiet_checkEach r fs).bind fun _ => Op.quiet_pure _

end Engine

/-! ### Clients -/

/-- Every client record can be read. -/
def ClientsReadable (t : Records) : Prop :=
  ∀ k, Key.clients <+: k → ∃ c, t.fetch Codec.client k = .ok c

namespace ClientsReadable

theorem erase (h : ClientsReadable t) (k : Bytes) : ClientsReadable (t.erase k) := by
  intro l hl
  by_cases hlk : l = k
  · exact ⟨none, Table.fetch_eq_none_iff.2 (by simp [hlk])⟩
  · rw [Table.fetch_congr (t := t) (by simp [hlk])]
    exact h l hl

theorem insert_root (h : ClientsReadable t) (r : String) (b : Bytes) :
    ClientsReadable (t.insert (Key.root r).bytes b) := by
  intro l hl
  have hne : l ≠ (Key.root r).bytes := by
    rintro rfl
    exact absurd (Key.mark_unique hl (Key.roots_prefix_iff.2 ⟨r, rfl⟩) rfl) (by decide)
  rw [Table.fetch_congr (t := t) (by simp [hne])]
  exact h l hl

theorem keeps_remove (id : Uuid) : Op.Keeps ClientsReadable (Clients.remove id) := by
  apply Op.Keeps.removeClient
  · apply Op.keeps_commit
    intro t c s h hs
    obtain ⟨-, rfl⟩ := Clients.detach_ok hs
    exact h.erase _
  · intro r
    apply Op.keeps_commit
    intro t u s h hs
    rcases Clients.leave_ok hs with rfl | ⟨old, -, rfl⟩
    · exact h
    · exact h.insert_root r _

end ClientsReadable

namespace Clients

theorem total_leaveEach (id : Uuid) (rs : List String) : (leaveEach id rs).Total := by
  induction rs with
  | nil => exact Op.total_pure ()
  | cons r rs ih => exact (Op.total_attempt _).bind fun _ => ih

theorem atomic_remove (id : Uuid) : (remove id).Atomic := by
  apply (Op.atomic_commit _).bind_total
  intro c
  exact (total_leaveEach id c.roots.toList).bind fun _ => Op.total_pure c

/-- Where client records can be read, a removal finds its client or misses it. -/
theorem answer_remove (h : ClientsReadable t) (id : Uuid) :
    (∃ c, (remove id t).answer = .ok c) ∨ ∃ m, (remove id t).answer = .error (.notFound m) := by
  obtain ⟨x, hx⟩ := h (Key.client id).bytes (List.prefix_append _ _)
  cases x with
  | none =>
    have hmiss : detach id t = .error (.notFound (.client id)) :=
      Txn.bind_of_error (Txn.require_of_none hx)
    refine Or.inr ⟨.client id, ?_⟩
    exact congrArg Run.answer (Op.run_bind_error (Op.commit_of_error hmiss))
  | some c =>
    have hfound : detach id t = .ok (c, t.erase (Key.client id).bytes) :=
      (Txn.bind_of_ok (Txn.require_eq_ok_iff.2 ⟨hx, rfl⟩)).trans rfl
    have hcommit : (Op.commit (detach id) t).answer = .ok c := by rw [Op.commit_of_ok hfound]
    have hafter : Op.Total (do leaveEach id c.roots.toList; return c) :=
      (total_leaveEach id c.roots.toList).bind fun _ => Op.total_pure c
    refine Or.inl ?_
    unfold remove
    rw [Op.bind_of_ok hcommit]
    exact hafter _

theorem total_removeEach (h : ClientsReadable t) (cs : List Client) (n : Nat) :
    ∃ m, (removeEach cs n t).answer = .ok m := by
  induction cs generalizing n t with
  | nil => exact ⟨n, rfl⟩
  | cons c cs ih =>
    have hafter := (ClientsReadable.keeps_remove c.uuid).final h
    unfold removeEach
    rw [Op.answer_attempt_bind]
    rcases answer_remove h c.uuid with ⟨d, hd⟩ | ⟨m, hm⟩
    · rw [hd]
      exact ih hafter (n + 1)
    · rw [hm]
      exact ih hafter n

/-- The listing reads every client record, and what it has read does not stop the cascade. -/
theorem atomic_removeAll : removeAll.Atomic := by
  intro t e he
  unfold removeAll at he ⊢
  cases hlist : (list t).answer with
  | error err =>
    rw [Op.bind_of_error hlist]
    rfl
  | ok cs =>
    have hread : ClientsReadable t := by
      intro k hk
      cases hscan : t.scan Codec.client Key.clients with
      | error err =>
        have hfail : (list t).answer = .error err := by
          show (t.scan Codec.client Key.clients).map _ = _
          rw [hscan]
          rfl
        rw [hfail] at hlist
        contradiction
      | ok vs => exact Table.fetch_of_scan hscan hk
    obtain ⟨m, hm⟩ := total_removeEach (t := t) hread cs 0
    rw [Op.bind_of_ok hlist, quiet_list.final, hm] at he
    contradiction

end Clients

/-! ### Roots -/

namespace Roots

theorem atomic_register (secrets : PasswordScheme) (r owner password : String) (salt : Bytes)
    (now : Instant) : (register secrets r owner password salt now).Atomic := by
  rcases register_cases with ⟨e, hfail⟩ | ⟨_, _, y, hcommit, _⟩
  · rw [hfail]
    exact Op.atomic_fail e
  · rw [hcommit]
    exact Op.atomic_commit y

/-- Whatever is stored, a join that fails commits nothing. -/
theorem atomic_join (secrets : PasswordScheme) (r : String) (c : Uuid) (password : String) :
    (join secrets r c password).Atomic := by
  apply (quiet_get r).bind_atomic
  intro x
  split
  · exact Op.atomic_fail _
  · exact Op.atomic_fail _
  · exact Op.atomic_commit _

theorem atomic_setPassword (secrets : PasswordScheme) (r password : String) (salt : Bytes) :
    (setPassword secrets r password salt).Atomic := by
  unfold setPassword
  split
  · exact Op.atomic_fail _
  · exact Op.atomic_commit _

theorem atomic_resetPassword (secrets : PasswordScheme) (configured : Option String)
    (generated r : String) (salt : Bytes) :
    (resetPassword secrets configured generated r salt).Atomic :=
  (atomic_setPassword secrets r _ salt).bind_total fun _ => Op.total_pure _

theorem total_purge (r : String) (batch : Nat) : (purge r batch).Total := by
  apply (SyncLedger.total_purge _ batch).bind
  intro _
  apply (SyncLedger.total_purge _ batch).bind
  intro _
  exact (total_drop _).bind fun _ => Op.total_pure _

theorem atomic_remove (r : String) (batch : Nat) : (remove r batch).Atomic :=
  (Op.atomic_commit _).bind_total fun _ => total_purge r batch

end Roots

/-! ### Files -/

namespace Files

theorem total_purge_path (r p : String) (batch : Nat) :
    Op.Total (do let n ← History.purge r p batch; Op.drop (.marker r (some p)); return n) :=
  (total_purge _ batch).bind fun _ => (total_drop _).bind fun _ => Op.total_pure _

theorem atomic_remove (r p : String) (batch : Nat) : (remove r p batch).Atomic :=
  (Op.atomic_commit _).bind_total fun _ => total_purge_path r p batch

/-- No file stops a cascade: there is nothing to be read but whether it is there. -/
theorem total_removeEach (batch : Nat) (fs : List File) (n : Nat) :
    (removeEach batch fs n).Total := by
  induction fs generalizing n with
  | nil => exact Op.total_pure n
  | cons f fs ih =>
    intro t
    unfold removeEach
    rw [Op.answer_attempt_bind]
    by_cases hthere : t.has (.root f.root) = true ∧ t.has (.file f.root f.path) = true
    · rw [Op.answer_eq (outcome_remove hthere.1 hthere.2 batch)]
      exact ih (n + 1) _
    · have hmissing : t.has (.root f.root) = false ∨ t.has (.file f.root f.path) = false := by
        rw [not_and_or] at hthere
        simpa using hthere
      obtain ⟨m, hm⟩ := outcome_remove_missing hmissing batch
      rw [Op.answer_eq hm]
      exact ih n _

theorem atomic_removeAll (scope : Scope) (batch : Nat) : (removeAll scope batch).Atomic :=
  (quiet_list scope).bind_atomic fun fs => (total_removeEach batch fs 0).atomic

end Files

/-- An attempt that is followed by another has failed, and so has committed nothing. -/
theorem Attempt.atomic_run (a : Attempt) (now : Instant) : (a.run now).Atomic := by
  have hobserve (o : Observation) : (Files.observe o now).Atomic := Op.atomic_commit _
  induction hn : a.left using Nat.strong_induction_on generalizing a with
  | _ n ih =>
    subst hn
    intro t e
    rw [run]
    simp only [Op.attempt]
    split
    · rename_i answer hdone
      intro he
      exact hobserve _ t e ((judge_done hdone).symm.trans he)
    · rename_i next hnext
      intro he
      obtain ⟨⟨err, herr⟩, -⟩ := judge_again hnext
      have hrest := ih _ (left_of_judge hnext) next rfl _ e he
      exact List.append_eq_nil_iff.2 ⟨hobserve _ t err herr, hrest⟩

/-! ### Sweeps -/

namespace Sweep

theorem total_reserve (r : String) (p : Option String) : (Op.commit (reserve r p)).Total := by
  intro t
  rcases reserve_cases r p t with h | ⟨-, h⟩
  · exact ⟨false, by rw [Op.commit_of_ok h]⟩
  · exact ⟨true, by rw [Op.commit_of_ok h]⟩

theorem total_finish (m : Marker) (batch : Nat) : (finish m batch).Total := by
  unfold finish
  split
  · have hread : (Op.read fun t => .ok (t.has (.root m.root))).Total := fun _ => ⟨_, rfl⟩
    apply hread.bind
    intro live
    split
    · exact Op.total_pure _
    · exact (Roots.total_purge m.root batch).bind fun _ => Op.total_pure _
  · rename_i path _
    have hread : (Op.read fun t => .ok (t.has (.file m.root path))).Total := fun _ => ⟨_, rfl⟩
    apply hread.bind
    intro live
    split
    · exact Op.total_pure _
    · exact (total_purge _ batch).bind fun _ => Op.total_pure _

theorem total_finishEach (batch : Nat) (ms : List (Bytes × Marker)) (report : Report) :
    (finishEach batch ms report).Total := by
  induction ms generalizing report with
  | nil => exact Op.total_pure report
  | cons m ms ih =>
    apply (total_finish m.2 batch).bind
    intro done
    exact (total_erase m.1).bind fun _ => ih _

/-- Recovery can fail only while it reads the markers. -/
theorem atomic_pending (batch : Nat) : (pending batch).Atomic :=
  (Op.quiet_read _).bind_atomic fun ms => (total_finishEach batch ms {}).atomic

theorem total_purgeRoots (batch : Nat) (rs : List String) (report : Report) :
    (purgeRoots batch rs report).Total := by
  induction rs generalizing report with
  | nil => exact Op.total_pure report
  | cons r rs ih =>
    apply (total_reserve r none).bind
    intro reserved
    split
    · exact (Roots.total_purge r batch).bind fun _ => ih _
    · exact ih report

theorem total_purgePaths (batch : Nat) (ls : List Location) (report : Report) :
    (purgePaths batch ls report).Total := by
  induction ls generalizing report with
  | nil => exact Op.total_pure report
  | cons l ls ih =>
    apply (total_reserve l.root (some l.path)).bind
    intro reserved
    split
    · exact (total_purge _ batch).bind fun _ => (total_drop _).bind fun _ => ih _
    · exact ih report

/-- A sweep never fails. -/
theorem total_orphans (batch : Nat) : (orphans batch).Total := by
  have hroots : (Op.read fun t => .ok (deadRoots t)).Total := fun _ => ⟨_, rfl⟩
  have hpaths : (Op.read fun t => .ok (deadPaths t)).Total := fun _ => ⟨_, rfl⟩
  refine hroots.bind fun rs => hpaths.bind fun ls => ?_
  exact (total_purgeRoots batch rs {}).bind fun report => total_purgePaths batch ls report

end Sweep

/-! ### Calls -/

/-- Every operation that only asks for what is stored commits nothing. -/
structure ReadersQuiet : Prop where
  client : ∀ id, (Clients.get id).Quiet
  clients : Clients.list.Quiet
  root : ∀ r, (Roots.get r).Quiet
  roots : Roots.list.Quiet
  members : ∀ r, (Roots.members r).Quiet
  authorize : ∀ r id, (Roots.authorize r id).Quiet
  latest : ∀ r p, (Files.latest r p).Quiet
  files : ∀ scope, (Files.list scope).Quiet
  version : ∀ r p ts, (History.get r p ts).Quiet
  newest : ∀ r p, (History.latest r p).Quiet
  versions : ∀ scope, (History.list scope).Quiet
  download : ∀ (e : Engine) contents r p ts, (e.download contents r p ts).Quiet
  verifyRoot : ∀ r, (Engine.verifyRoot r).Quiet

theorem readersQuiet : ReadersQuiet where
  client := Clients.quiet_get
  clients := Clients.quiet_list
  root := Roots.quiet_get
  roots := Roots.quiet_list
  members := Roots.quiet_members
  authorize := Roots.quiet_authorize
  latest := Files.quiet_latest
  files := Files.quiet_list
  version := History.quiet_get
  newest := History.quiet_latest
  versions := History.quiet_list
  download := Engine.quiet_download
  verifyRoot := Engine.quiet_verifyRoot

theorem Op.Atomic.perform {α : Type} {op : Op α} (h : op.Atomic) {s : Session} {wrap : α → Reply}
    {err : Error} (he : (s.perform op wrap).1 = .error err) :
    (s.perform op wrap).2.records = s.records := by
  cases ha : (op s.records).answer with
  | error e => exact h.final_of_error ha
  | ok v =>
    have hanswer : (s.perform op wrap).1 = .ok (wrap v) := congrArg (Except.map wrap) ha
    rw [hanswer] at he
    contradiction

theorem Session.records_of_error {s : Session} {q : Call} (hq : q ≠ .removeAllRoots) {err : Error}
    (h : (s.serve q).1 = .error err) : (s.serve q).2.records = s.records := by
  cases q with
  | registerClient id address now =>
    have hatomic : (Clients.register id (s.db.issued + 1) address now).Atomic := Op.atomic_commit _
    exact hatomic.perform (s := { s with db := { s.db with issued := s.db.issued + 1 } }) h
  | removeClient id => exact (Clients.atomic_remove id).perform h
  | removeAllClients => exact Clients.atomic_removeAll.perform h
  | registerRoot r owner password salt now => exact (Roots.atomic_register _ r _ _ _ _).perform h
  | joinRoot r id password => exact (Roots.atomic_join _ r id _).perform h
  | setPassword r password salt => exact (Roots.atomic_setPassword _ r _ _).perform h
  | resetPassword r random salt => exact (Roots.atomic_resetPassword _ _ _ r _).perform h
  | observe o now => exact (Op.atomic_commit (Files.reconcile o now)).perform h
  | recordEvent o now => exact (Attempt.atomic_run _ now).perform h
  | removeFile r p => exact (Files.atomic_remove r p _).perform h
  | removeAllFiles scope => exact (Files.atomic_removeAll scope _).perform h
  | removeRoot r => exact (Roots.atomic_remove r _).perform h
  | removeAllRoots => contradiction
  | sweepOrphans => exact (Sweep.total_orphans _).atomic.perform h
  | putContent data => rfl
  | removeContent hash => rfl
  | restart c =>
    simp only [serve] at h ⊢
    split
    · rename_i hopen
      rw [hopen] at h
      contradiction
    · rfl

/-- **What fails changes nothing.**  Whatever is stored, damaged or not, a call that fails leaves
    every record as it was; only the removal of all roots can stop halfway.  An engine that cannot
    be opened over a database has changed none of its records, and what only asks for records never
    commits anything. -/
theorem failed_call_changes_nothing (s : Session) :
    (∀ q err, q ≠ .removeAllRoots → (s.serve q).1 = .error err →
      (s.serve q).2.records = s.records) ∧
    (∀ c k e err, Engine.ofConfig c k = .ok e → Engine.openOver c s.db k = .error err →
      (s.db.perform e.recover).2.records = s.records) ∧
    ReadersQuiet := by
  refine ⟨?_, ?_, readersQuiet⟩
  · intro q err hq h
    exact Session.records_of_error hq h
  · intro c k e err he h
    cases ha : (e.recover s.db.records).answer with
    | error err' => exact (Sweep.atomic_pending e.batch).final_of_error ha
    | ok report =>
      rw [Removal.openOver_eq he (Prod.ext ha rfl)] at h
      contradiction

/-- Two clients have joined a root; the record of the second is damaged, and so is a marker. -/
def Session.damaged : Session :=
  let s := (Session.fresh Session.plain).run
    [.registerClient ⟨1⟩ "a" ⟨0, 0⟩, .registerClient ⟨2⟩ "b" ⟨0, 0⟩,
      .registerRoot "r" "o" "s" [] ⟨0, 0⟩, .joinRoot "r" ⟨1⟩ "s", .joinRoot "r" ⟨2⟩ "s"]
  let records := (s.records.insert (Key.client ⟨2⟩).bytes []).insert (Key.marker "q" none).bytes []
  { s with db := { s.db with records } }

/-- The root stays, although the first member had forgotten it when the second was met; and an
    engine that cannot read the marker is not opened. -/
theorem damaged_unchanged :
    let s := Session.damaged
    (∃ err, (s.serve (.removeRoot "r")).1 = .error err ∧
      (s.serve (.removeRoot "r")).2.records = s.records) ∧
    ∃ err, Engine.openOver Removal.stepwise.config s.db = .error err ∧
      (s.db.perform Removal.stepwise.recover).2.records = s.records := by
  intro s
  obtain ⟨hcalls, hopens, -⟩ := failed_call_changes_nothing s
  constructor
  · have hfails : (s.serve (.removeRoot "r")).1.toBool = false := by decide +kernel
    cases h : (s.serve (.removeRoot "r")).1 with
    | ok v =>
      rw [h] at hfails
      contradiction
    | error err => exact ⟨err, rfl, hcalls _ err (by simp) h⟩
  · have hfails : (Engine.openOver Removal.stepwise.config s.db).toBool = false := by
      decide +kernel
    cases h : Engine.openOver Removal.stepwise.config s.db with
    | ok v =>
      rw [h] at hfails
      contradiction
    | error err => exact ⟨err, rfl, hopens _ _ Removal.stepwise err rfl h⟩

end SyncLedger
