/-
  SyncLedger/Proofs/Sessions.lean
  ===============================
  **Runs of calls, and the commit log that they leave behind.**  A session is an engine over
  a database; it serves calls one after another, each to its end, and a call may also be
  to open another engine over what is kept.  The commit log (`commitLog`) is read off what was
  asked and answered.  It says nothing of keys or of stored forms: a version is added where a
  decision recorded it, under every path that it touches, and a removal that succeeded clears
  the paths that it covers.

  `stored_run` is the invariant of all runs: the table is the image of the log.  Its step is
  `StoredIn.serve`, one case for each call, and everything that later modules say of
  reachable tables follows from it.
-/
import SyncLedger.Proofs.Reconciling
import SyncLedger.Proofs.Recovery
import SyncLedger.Proofs.Registry

namespace SyncLedger

variable {t : Records}

/-! ### Calls -/

/-- What can be asked of an engine that may change what is kept. -/
inductive Call where
  | registerClient (id : Uuid) (address : String) (now : Instant)
  | removeClient (id : Uuid)
  | removeAllClients
  | registerRoot (path owner password : String) (salt : Bytes) (now : Instant)
  | joinRoot (path : String) (id : Uuid) (password : String)
  | setPassword (path password : String) (salt : Bytes)
  | resetPassword (path : String) (random salt : Bytes)
  | observe (o : Observation) (now : Instant)
  | recordEvent (o : Observation) (now : Instant)
  | removeFile (root path : String)
  | removeAllFiles (scope : Scope)
  | removeRoot (path : String)
  | removeAllRoots
  | sweepOrphans
  | putContent (data : Bytes)
  | removeContent (hash : String)
  /-- Opens an engine with these settings over what is kept. -/
  | restart (c : Config)

/-- The names that a call brings in are short and its dates can be represented. -/
def Call.Fits : Call → Prop
  | .registerRoot path _ _ _ _ => Short path
  | .observe o now | .recordEvent o now => o.Fits ∧ now.Representable
  | .removeFile r p => Short r ∧ Short p
  | .removeAllFiles scope => scope.Fits
  | _ => True

/-- What a call that succeeds is answered with. -/
inductive Reply where
  | client (c : Client)
  | root (r : Root)
  | epoch (n : UInt64)
  | secret (password : String)
  | decided (d : Decision)
  | count (n : Nat)
  | purged (p : Purged)
  | swept (r : Sweep.Report)
  | stored (hash : String)
  | found (b : Bool)
  | opened

/-- An engine and what it is open over. -/
structure Session where
  engine : Engine
  db : Database

namespace Session

/-- An engine over an empty database. -/
def fresh (e : Engine) : Session := ⟨e, {}⟩

/-- The records of a session. -/
def records (s : Session) : Records := s.db.records

def perform {α : Type} (s : Session) (op : Op α) (wrap : α → Reply) :
    Except Error Reply × Session :=
  let (answer, db) := s.db.perform op
  (answer.map wrap, { s with db })

/-- Serves one call to its end. -/
def serve (s : Session) : Call → Except Error Reply × Session
  | .registerClient id address now =>
    let (answer, db) := Engine.registerClient s.db id address now
    (answer.map .client, { s with db })
  | .removeClient id => s.perform (Clients.remove id) .client
  | .removeAllClients => s.perform Clients.removeAll .count
  | .registerRoot path owner password salt now =>
    s.perform (s.engine.registerRoot path owner password salt now) .root
  | .joinRoot path id password => s.perform (s.engine.joinRoot path id password) .root
  | .setPassword path password salt => s.perform (s.engine.setPassword path password salt) .epoch
  | .resetPassword path random salt => s.perform (s.engine.resetPassword path random salt) .secret
  | .observe o now => s.perform (Files.observe o now) .decided
  | .recordEvent o now => s.perform (s.engine.recordEvent o now) .decided
  | .removeFile r p => s.perform (s.engine.removeFile r p) .count
  | .removeAllFiles scope => s.perform (s.engine.removeAllFiles scope) .count
  | .removeRoot path => s.perform (s.engine.removeRoot path) .purged
  | .removeAllRoots => s.perform s.engine.removeAllRoots .count
  | .sweepOrphans => s.perform s.engine.sweepOrphans .swept
  | .putContent data =>
    let (hash, db) := s.db.putContent s.engine.scheme data
    (.ok (.stored hash), { s with db })
  | .removeContent hash =>
    let (there, db) := s.db.removeContent hash
    (.ok (.found there), { s with db })
  | .restart c => match Engine.openOver c s.db s.engine.schemes with
    | .ok (engine, db) => (.ok .opened, ⟨engine, db⟩)
    | .error e => (.error e, s)

/-- Serves calls one after another. -/
def run (s : Session) : List Call → Session
  | [] => s
  | q :: qs => (s.serve q).2.run qs

end Session

/-- What every call keeps is kept by a run. -/
theorem Session.keeps_run {P : Session → Prop} {qs : List Call}
    (hserve : ∀ q ∈ qs, ∀ s, P s → P (s.serve q).2) {s : Session} (h : P s) : P (s.run qs) := by
  induction qs generalizing s with
  | nil => exact h
  | cons q qs ih =>
    have hstep := hserve q List.mem_cons_self s h
    exact ih (fun q' hq' => hserve q' (List.mem_cons_of_mem q hq')) hstep

theorem Engine.ofConfig_ok {c : Config} {k : Schemes} {e : Engine}
    (h : Engine.ofConfig c k = .ok e) :
    ∃ secrets, k.passwords c.security = .ok secrets ∧
      e = { config := c, schemes := k, secrets } := by
  unfold Engine.ofConfig at h
  cases hs : k.passwords c.security with
  | error err =>
    rw [hs] at h
    contradiction
  | ok secrets =>
    rw [hs] at h
    exact ⟨secrets, rfl, (Except.ok.inj h).symm⟩

/-- An engine that was opened has finished its recovery. -/
theorem Engine.openOver_ok {c : Config} {db db' : Database} {k : Schemes} {e : Engine}
    (h : Engine.openOver c db k = .ok (e, db')) :
    Engine.ofConfig c k = .ok e ∧ db' = (db.perform e.recover).2 := by
  unfold Engine.openOver at h
  cases he : Engine.ofConfig c k with
  | error err =>
    rw [he] at h
    contradiction
  | ok e' =>
    rw [he] at h
    have hmap : (e'.recover db.records).answer.map
        (fun _ => (e', (db.perform e'.recover).2)) = .ok (e, db') := h
    cases ha : (e'.recover db.records).answer with
    | error err =>
      rw [ha] at hmap
      contradiction
    | ok report =>
      rw [ha] at hmap
      obtain ⟨rfl, rfl⟩ := Prod.ext_iff.1 (Except.ok.inj hmap)
      exact ⟨rfl, rfl⟩

theorem Session.engine_serve (s : Session) (q : Call) :
    (s.serve q).2.engine = s.engine ∨
      ∃ c, q = .restart c ∧ Engine.ofConfig c s.engine.schemes = .ok (s.serve q).2.engine := by
  cases q with
  | restart c =>
    simp only [serve]
    split
    · rename_i engine db hopen
      exact Or.inr ⟨c, rfl, (Engine.openOver_ok hopen).1⟩
    · exact Or.inl rfl
  | _ => exact Or.inl rfl

/-- Settings come and go with the engines, schemes stay. -/
theorem Session.schemes_serve (s : Session) (q : Call) :
    (s.serve q).2.engine.schemes = s.engine.schemes := by
  rcases s.engine_serve q with hsame | ⟨c, -, hopen⟩
  · rw [hsame]
  · obtain ⟨secrets, -, he⟩ := Engine.ofConfig_ok hopen
    rw [he]

/-! ### The commit log -/

/-- A call, its answer, and the records after it. -/
structure Event where
  call : Call
  answer : Except Error Reply
  after : Records

namespace Event

/-- The version that a decision recorded. -/
def version? (ev : Event) : Option Version :=
  match ev.answer with
  | .ok (.decided d) => d.version?
  | _ => none

/-- Whether a removal has erased the history of a path.  One of all roots that is stopped has
    erased those of the roots that are not registered any more. -/
def erases (ev : Event) : String → String → Bool :=
  match ev.call, ev.answer with
  | .removeFile r p, .ok _ => (Scope.path r p).covers
  | .removeAllFiles scope, .ok _ => scope.covers
  | .removeRoot r, .ok _ => (Scope.root r).covers
  | .removeAllRoots, .ok _ => Scope.all.covers
  | .removeAllRoots, .error _ => fun r _ => !ev.after.has (.root r)
  | _, _ => fun _ _ => false

/-- What an event adds to the commit log and takes from it. -/
def note (j : Journal) (ev : Event) : Journal := (j.erase ev.erases).advance ev.version?

end Event

/-- What was asked in a run, with the answers. -/
def Session.events (s : Session) : List Call → List Event
  | [] => []
  | q :: qs =>
    let (answer, s') := s.serve q
    ⟨q, answer, s'.records⟩ :: s'.events qs

/-- For every path the versions that were recorded for it and have not been erased since, in the
    order of their commits. -/
def commitLog (events : List Event) : Journal := events.foldl Event.note Journal.empty

/-! ### The invariant of all runs -/

namespace Event

variable {α : Type} {q : Call} {a : Except Error α} {u : Records} {wrap : α → Reply}

/-- An answer other than a decision has no version. -/
theorem version?_of_map (hwrap : ∀ v d, wrap v ≠ .decided d) :
    (Event.mk q (a.map wrap) u).version? = none := by
  cases a with
  | error e => rfl
  | ok v =>
    unfold version?
    split
    · rename_i d hd
      exact absurd (Except.ok.inj hd) (hwrap v d)
    · rfl

theorem note_of_map {j : Journal} (hwrap : ∀ v d, wrap v ≠ .decided d) :
    (Event.mk q (a.map wrap) u).note j = j.erase (Event.mk q (a.map wrap) u).erases := by
  rw [note, version?_of_map hwrap]
  rfl

end Event

namespace Session

variable {s : Session} {α : Type} {op : Op α} {wrap : α → Reply}

theorem perform_eq {a : Except Error α} {t : Records} (h : op.outcome s.records = (a, t)) :
    s.perform op wrap = (a.map wrap, { s with db := { s.db with records := t } }) := by
  obtain ⟨rfl, rfl⟩ := Prod.ext_iff.1 h
  rfl

end Session

namespace Journal.StoredIn

variable {j : Journal} {s : Session} {q : Call} {α : Type}

/-- The event of a call that is served. -/
def eventOf (s : Session) (q : Call) : Event := ⟨q, (s.serve q).1, (s.serve q).2.records⟩

/-- No call both adds to the log and takes from it. -/
theorem eventOf_quiet (s : Session) (q : Call) :
    (eventOf s q).erases = (fun _ _ => false) ∨ (eventOf s q).version? = none := by
  cases q with
  | observe | recordEvent => exact Or.inl rfl
  | putContent | removeContent | restart => exact Or.inl rfl
  | removeFile | removeAllFiles | removeRoot | removeAllRoots =>
    exact Or.inr (Event.version?_of_map (by simp))
  | _ => exact Or.inl rfl

theorem unmarked_prefix (h : j.StoredIn t) : t.under Key.markers = [] := by
  apply h.keyed.under_eq_nil
  intro k hk hstarts
  obtain ⟨r, p, rfl⟩ := Key.markers_prefix_iff.1 hstarts
  exact h.unmarked r p hk

/-- The keys of files and versions are those of paths with a history. -/
theorem of_file_key (h : j.StoredIn t) {k : Bytes} (hk : k ∈ t.keysUnder Key.files) :
    ∃ r p, Short r ∧ Short p ∧ k = (Key.file r p).bytes ∧ j r p ≠ [] := by
  obtain ⟨hstarts, b, hb⟩ := Table.mem_keysUnder.1 hk
  obtain ⟨key, hkey, rfl⟩ := h.keyed k b hb
  obtain ⟨r, p, rfl⟩ := Key.files_prefix_iff.1 hstarts
  exact ⟨r, p, hkey.1, hkey.2, rfl, (h.has_file hkey.1 hkey.2).1 (Table.has_iff.2 ⟨b, hb⟩)⟩

theorem of_version_key (h : j.StoredIn t) {k : Bytes} (hk : k ∈ t.keysUnder Key.versions) :
    ∃ r p ts, Short r ∧ Short p ∧ k = (Key.version r p ts).bytes ∧ j r p ≠ [] := by
  obtain ⟨hstarts, b, hb⟩ := Table.mem_keysUnder.1 hk
  obtain ⟨key, hkey, rfl⟩ := h.keyed k b hb
  obtain ⟨r, p, ts, rfl⟩ := Key.versions_prefix_iff.1 hstarts
  obtain ⟨v, hv, _⟩ := (h.get?_version hkey.1 hkey.2).1 hb
  exact ⟨r, p, ts, hkey.1, hkey.2, rfl, List.ne_nil_of_mem hv⟩

theorem deadRoots_eq_nil (h : j.StoredIn t) : Sweep.deadRoots t = [] := by
  unfold Sweep.deadRoots
  refine congrArg (fun rs => (OrderedSet.ofList rs).toList) (List.filter_eq_nil_iff.2 ?_)
  intro q hq
  rcases List.mem_append.1 hq with hq | hq
  · obtain ⟨k, hk, hparse⟩ := List.mem_filterMap.1 hq
    obtain ⟨r, p, hr, hp, rfl, hne⟩ := h.of_file_key hk
    obtain rfl : r = q := by simpa [hr, hp] using hparse
    simp [h.rooted r p hr hp hne]
  · obtain ⟨k, hk, hparse⟩ := List.mem_filterMap.1 hq
    obtain ⟨r, p, ts, hr, hp, rfl, hne⟩ := h.of_version_key hk
    obtain rfl : r = q := by simpa [hr, hp] using hparse
    simp [h.rooted r p hr hp hne]

theorem deadPaths_eq_nil (h : j.StoredIn t) : Sweep.deadPaths t = [] := by
  unfold Sweep.deadPaths
  refine congrArg (fun ls => (OrderedSet.ofList ls).toList) (List.filter_eq_nil_iff.2 ?_)
  intro l hl
  obtain ⟨k, hk, hparse⟩ := List.mem_filterMap.1 hl
  obtain ⟨r, p, ts, hr, hp, rfl, hne⟩ := h.of_version_key hk
  obtain rfl : Sweep.Location.mk r p = l := by simpa [hr, hp] using hparse
  simp [(h.has_file hr hp).2 hne]

/-- There are no orphans. -/
theorem sweepOrphans_eq (h : j.StoredIn t) (batch : Nat) :
    Sweep.orphans batch t = ⟨[], .ok {}⟩ := by
  unfold Sweep.orphans
  rw [Op.read_bind_of_ok (g := fun t => .ok (Sweep.deadRoots t))
    (congrArg Except.ok h.deadRoots_eq_nil)]
  exact Op.read_bind_of_ok (g := fun t => .ok (Sweep.deadPaths t))
    (congrArg Except.ok h.deadPaths_eq_nil)

theorem serve_perform {s' : Session} {op : Op α} {wrap : α → Reply}
    (hserve : s.serve q = s'.perform op wrap) {a : Except Error α} {u : Records}
    (hop : op.outcome s'.records = (a, u))
    (hstored : ((Event.mk q (a.map wrap) u).note j).StoredIn u) :
    ((eventOf s q).note j).StoredIn (s.serve q).2.records := by
  rw [eventOf, hserve, Session.perform_eq hop]
  exact hstored

/-- What keeps the log stored and answers with no decision is not in the log. -/
theorem serve_quiet {s' : Session} (h : j.StoredIn s'.records) {op : Op α} {wrap : α → Reply}
    (hserve : s.serve q = s'.perform op wrap) (hwrap : ∀ v d, wrap v ≠ .decided d)
    (hkeeps : Op.Keeps j.StoredIn op)
    (herases : ∀ a u, (Event.mk q a u).erases = fun _ _ => false) :
    ((eventOf s q).note j).StoredIn (s.serve q).2.records := by
  refine serve_perform hserve rfl ?_
  rw [Event.note_of_map hwrap, herases, erase_none]
  exact hkeeps.outcome h

/-- A removal takes from the log what it covers. -/
theorem serve_removal {op : Op α} {wrap : α → Reply} (hserve : s.serve q = s.perform op wrap)
    (hwrap : ∀ v d, wrap v ≠ .decided d) {a : Except Error α} {u : Records}
    (hop : op.outcome s.records = (a, u))
    (hstored : (j.erase (Event.mk q (a.map wrap) u).erases).StoredIn u) :
    ((eventOf s q).note j).StoredIn (s.serve q).2.records := by
  refine serve_perform hserve hop ?_
  rw [Event.note_of_map hwrap]
  exact hstored

/-- An observation adds the version that it is answered with. -/
theorem serve_decision (h : j.StoredIn s.records) {op : Op Decision}
    (hserve : s.serve q = s.perform op .decided)
    (herases : ∀ a u, (Event.mk q a u).erases = fun _ _ => false)
    (hcases : (∃ e, op.outcome s.records = (.error e, s.records)) ∨
      ∃ d u, op.outcome s.records = (.ok d, u) ∧ (j.advance d.version?).StoredIn u) :
    ((eventOf s q).note j).StoredIn (s.serve q).2.records := by
  rcases hcases with ⟨e, he⟩ | ⟨d, u, hd, hstored⟩
  · refine serve_perform hserve he ?_
    rw [Event.note, herases, erase_none]
    exact h
  · refine serve_perform hserve hd ?_
    rw [Event.note, herases, erase_none]
    exact hstored

theorem observe_cases (h : j.StoredIn t) {o : Observation} (ho : o.Fits) {now : Instant}
    (hnow : now.Representable) : (∃ e, (Files.observe o now).outcome t = (.error e, t)) ∨
      ∃ d u, (Files.observe o now).outcome t = (.ok d, u) ∧ (j.advance d.version?).StoredIn u := by
  rw [Attempt.observe_outcome]
  cases hr : Files.reconcile o now t with
  | error e => exact Or.inl ⟨e, rfl⟩
  | ok r => exact Or.inr ⟨r.1, r.2, rfl, h.reconcile ho hnow hr⟩

theorem attempt_cases (h : j.StoredIn t) (a : Attempt) (ha : a.observation.Fits) {now : Instant}
    (hnow : now.Representable) : (∃ e, (a.run now).outcome t = (.error e, t)) ∨
      ∃ d u, (a.run now).outcome t = (.ok d, u) ∧ (j.advance d.version?).StoredIn u := by
  rcases a.run_cases now t with hfail | ⟨stamp, d, u, hd, hrun⟩
  · exact Or.inl hfail
  · refine Or.inr ⟨d, u, hrun, h.reconcile ?_ hnow hd⟩
    exact ⟨ha.root, ha.path, ha.hash, ha.metadata, ha.former⟩

/-- Opening another engine finds nothing to recover. -/
theorem serve_restart (h : j.StoredIn s.records) (c : Config) :
    ((eventOf s (.restart c)).note j).StoredIn (s.serve (.restart c)).2.records := by
  have hopen : s.db.records.under Key.markers = [] := h.unmarked_prefix
  have hserve : (∃ err, s.serve (.restart c) = (.error err, s)) ∨
      ∃ e, s.serve (.restart c) = (.ok .opened, ⟨e, s.db⟩) := by
    simp only [Session.serve]
    cases he : Engine.ofConfig c s.engine.schemes with
    | error err => exact Or.inl ⟨err, by simp [Engine.openOver, he, bind, Except.bind]⟩
    | ok e =>
      have hsame : e.recover.outcome s.db.records = (.ok {}, s.db.records) := by
        rw [Op.outcome, Removal.recover_of_unmarked hopen e]
        rfl
      exact Or.inr ⟨e, by rw [Removal.openOver_eq he hsame]⟩
  rcases hserve with ⟨err, herr⟩ | ⟨e, he⟩
  · rw [eventOf, herr]
    exact j.erase_none.symm ▸ h
  · rw [eventOf, he]
    exact j.erase_none.symm ▸ h

/-- Serving a call turns a table that stores the log into one that stores the log with the
    event of the call. -/
theorem serve (h : j.StoredIn s.records) (hq : q.Fits) :
    ((eventOf s q).note j).StoredIn (s.serve q).2.records := by
  cases q with
  | registerClient id address now =>
    have hissued : j.StoredIn
        (Session.mk s.engine { s.db with issued := s.db.issued + 1 }).records := h
    exact hissued.serve_quiet rfl (by simp) (Clients.keeps_register id _ address now) fun _ _ => rfl
  | removeClient id =>
    exact h.serve_quiet rfl (by simp) (Clients.keeps_remove id) fun _ _ => rfl
  | removeAllClients =>
    exact h.serve_quiet rfl (by simp) Clients.keeps_removeAll fun _ _ => rfl
  | registerRoot path owner password salt now =>
    exact h.serve_quiet rfl (by simp) (Roots.keeps_register _ hq _ _ _ _) fun _ _ => rfl
  | joinRoot path id password =>
    exact h.serve_quiet rfl (by simp) (Roots.keeps_join _ _ _ _) fun _ _ => rfl
  | setPassword path password salt =>
    exact h.serve_quiet rfl (by simp) (Roots.keeps_setPassword _ _ _ _) fun _ _ => rfl
  | resetPassword path random salt =>
    exact h.serve_quiet rfl (by simp) (Roots.keeps_resetPassword _ _ _ _ _) fun _ _ => rfl
  | observe o now =>
    exact h.serve_decision rfl (fun _ _ => rfl) (h.observe_cases hq.1 hq.2)
  | recordEvent o now =>
    exact h.serve_decision rfl (fun _ _ => rfl) (h.attempt_cases _ hq.1 hq.2)
  | removeFile r p =>
    rcases h.removeFile hq.1 hq.2 s.engine.batch with ⟨m, hm, hnil⟩ | ⟨u, hu, hstored⟩
    · refine serve_removal rfl (by simp) hm ?_
      exact j.erase_none.symm ▸ h
    · exact serve_removal rfl (by simp) hu hstored
  | removeAllFiles scope =>
    obtain ⟨n, u, hu, hstored⟩ := h.removeAllFiles hq s.engine.batch
    exact serve_removal rfl (by simp) hu hstored
  | removeRoot path =>
    rcases h.removeRoot path s.engine.batch with ⟨e, he, _⟩ | ⟨n, u, hu, hstored, _⟩
    · refine serve_removal rfl (by simp) he ?_
      exact j.erase_none.symm ▸ h
    · exact serve_removal rfl (by simp) hu hstored
  | removeAllRoots =>
    obtain ⟨a, u, hu, hstored, hall⟩ := h.removeAllRoots s.engine.batch
    refine serve_removal rfl (by simp) hu ?_
    cases a with
    | error e => exact hstored
    | ok n =>
      have hnone (r : String) : (!u.has (.root r)) = true := by simp [hall n rfl r]
      simp only [hnone] at hstored
      exact hstored
  | sweepOrphans =>
    refine serve_removal (a := .ok {}) (u := s.records) rfl (by simp) ?_ (j.erase_none.symm ▸ h)
    have hsame : s.engine.sweepOrphans s.records = ⟨[], .ok {}⟩ := h.sweepOrphans_eq _
    rw [Op.outcome, hsame]
    rfl
  | putContent data => exact j.erase_none.symm ▸ h
  | removeContent hash => exact j.erase_none.symm ▸ h
  | restart c =>
    exact h.serve_restart c

theorem run (h : j.StoredIn s.records) {qs : List Call} (hqs : ∀ q ∈ qs, q.Fits) :
    ((s.events qs).foldl Event.note j).StoredIn (s.run qs).records := by
  -- the journal grows with the run, so it varies in the induction
  induction qs generalizing s j with
  | nil => exact h
  | cons q qs ih =>
    have hstep := h.serve (hqs q List.mem_cons_self)
    exact ih hstep fun q' hq' => hqs q' (List.mem_cons_of_mem q hq')

end Journal.StoredIn

/-- **Every run leaves the image of its commit log.** -/
theorem stored_run (e : Engine) {qs : List Call} (hqs : ∀ q ∈ qs, q.Fits) :
    (commitLog ((Session.fresh e).events qs)).StoredIn ((Session.fresh e).run qs).records :=
  Journal.StoredIn.run Journal.storedIn_empty hqs

/-! ### A run -/

namespace Session

/-- A scheme that keeps passwords as they are. -/
def plainSecrets : PasswordScheme where
  digest _ password := .ok password
  verify password kept := .ok (password == kept)

/-- Passwords are kept as they are, whatever the settings say. -/
def plainSchemes : Schemes where
  passwords _ := .ok plainSecrets
  contents := .standard

def plain : Engine := ⟨{ dataDir := "" }, plainSchemes, plainSecrets⟩

/-- A client has seen a file of the root `r`. -/
def seen (path hash : String) (stamp : UInt64) (renamedFrom : Option String) : Call :=
  .observe { root := "r", path, client := ⟨1⟩, hash, stamp := .exact stamp, renamedFrom } ⟨0, 0⟩

/-- A file is renamed, its new path is removed, and another file is written there. -/
def renameAndReuse : List Call :=
  [.registerClient ⟨1⟩ "c" ⟨0, 0⟩, .registerRoot "r" "o" "s" [] ⟨0, 0⟩, .joinRoot "r" ⟨1⟩ "s",
    seen "a" "h" 1 none, seen "b" "h" 2 (some "a"), .removeFile "r" "b", seen "b" "g" 3 none]

theorem seen_fits {path hash : String} {stamp : UInt64} {renamedFrom : Option String}
    (hpath : Short path) (hhash : Short hash) (hformer : ∀ p ∈ renamedFrom, Short p) :
    (seen path hash stamp renamedFrom).Fits := by
  have hroot : Short "r" := by decide
  refine ⟨⟨hroot, hpath, hhash, fun t ht => ?_, hformer⟩, ?_⟩
  · simp at ht
  · exact ⟨by decide, by decide⟩

theorem renameAndReuse_fits : ∀ c ∈ renameAndReuse, c.Fits := by
  simp only [renameAndReuse, List.forall_mem_cons]
  have hroot : Short "r" := by decide
  refine ⟨trivial, hroot, trivial, ?_, ?_, ?_, ?_, ?_⟩
  · exact seen_fits (by decide) (by decide) (by simp)
  · apply seen_fits (by decide) (by decide)
    intro p hp
    obtain rfl := Option.some.inj hp
    decide
  · exact ⟨by decide, by decide⟩
  · exact seen_fits (by decide) (by decide) (by simp)
  · simp

end Session

end SyncLedger
