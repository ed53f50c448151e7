/-
  SyncLedger/Proofs/Memberships.lean
  ==================================
  **Membership is the same on both sides, and what the run says.**  A client is a member of a
  root exactly if it has joined the root and neither of the two has been removed since, and both
  records say so.  What a deed does to membership and to registration is one equivalence each
  (`Step.lists_iff`, `Step.client_iff`, `Step.root_iff`); `Trace.since_iff` makes of such an
  equivalence what a run does.

  Whoever is not a member is refused on every root, and an observation that is tried again is
  refused at its first attempt.
-/
import SyncLedger.Proofs.RosterRuns

namespace SyncLedger

open Journal.StoredIn (eventOf)

variable {t : Records} {r : String} {c : Uuid} {now : Instant} {o : Observation}

/-- The record of a root has a client among its members. -/
def RootLists (t : Records) (r : String) (c : Uuid) : Prop :=
  ∃ x, t.fetch Codec.root (Key.root r).bytes = .ok (some x) ∧ c ∈ x.members

/-- The record of a client has a root among those that it joined. -/
def ClientLists (t : Records) (c : Uuid) (r : String) : Prop :=
  ∃ y, t.fetch Codec.client (Key.client c).bytes = .ok (some y) ∧ r ∈ y.roots

/-- Calls that have no business with membership. -/
def Call.SparesMembers : Call → Prop
  | .setPassword _ _ _ | .resetPassword _ _ _ => True
  | .observe _ _ | .recordEvent _ _ => True
  | .removeFile _ _ | .removeAllFiles _ => True
  | _ => False

/-- All that such a call can have done is to give a root another password. -/
theorem Event.deed?_of_spares {ev : Event} (h : ev.call.SparesMembers) :
    ∀ d ∈ ev.deed?, ∃ path password, d = .secretChanged path password := by
  intro d hd
  unfold deed? at hd
  split at hd
  case h_6 path password _ _ _ _ => exact ⟨path, password, (Option.some.inj hd).symm⟩
  case h_7 path _ _ password _ _ => exact ⟨path, password, (Option.some.inj hd).symm⟩
  all_goals simp_all [Call.SparesMembers]

theorem Call.newcomer?_of_spares {q : Call} (h : q.SparesMembers) : q.newcomer? = none := by
  cases q <;> first | rfl | exact h.elim

/-! ### Observations of those who are no members -/

theorem Files.reconcile_stranger {x : Root} (hopen : o.refusal? = none)
    (hx : t.fetch Codec.root (Key.root o.root).bytes = .ok (some x)) (hout : ¬ o.client ∈ x.members)
    (now : Instant) :
    Files.reconcile o now t = .error (.unauthorized (.notMember o.client o.root)) := by
  have hmember : (!x.members.contains o.client) = true := by
    rw [Bool.not_eq_true', OrderedSet.contains_eq_false_iff]
    exact hout
  unfold Files.reconcile
  simp only [hopen]
  refine (Txn.bind_of_ok (Txn.require_eq_ok_iff.2 ⟨hx, rfl⟩)).trans ?_
  simp only [hmember, if_true]
  rfl

/-- Only conflicts are tried again. -/
theorem Attempt.run_unauthorized {a : Attempt} {d : Denial}
    (h : Files.observe a.observation now t = ⟨[], .error (.unauthorized d)⟩) :
    a.run now t = ⟨[], .error (.unauthorized d)⟩ := by
  rw [Attempt.run]
  simp only [Op.attempt, h]
  rfl

namespace Roster

variable {S : PasswordScheme → Prop} {secrets : PasswordScheme} {g g' : Roster} {n : Nat}
  {ds : List Deed} {d : Deed}

namespace StoredIn

theorem rootLists_iff (h : g.StoredIn n t) (r : String) (c : Uuid) :
    RootLists t r c ↔ g.Lists r c := by
  simp [RootLists, Lists, h.fetch_root]

theorem clientLists_iff (h : g.StoredIn n t) (c : Uuid) (r : String) :
    ClientLists t c r ↔ g.Joined c r := by
  simp [ClientLists, Joined, h.fetch_client]

theorem observe_stranger (h : g.StoredIn n t) (hopen : o.refusal? = none)
    (hroot : t.has (.root o.root) = true) (hout : ¬ g.Lists o.root o.client) (now : Instant) :
    Files.observe o now t = ⟨[], .error (.unauthorized (.notMember o.client o.root))⟩ := by
  rw [h.has_root, Option.isSome_iff_exists] at hroot
  obtain ⟨x, hx⟩ := hroot
  have hfetch : t.fetch Codec.root (Key.root o.root).bytes = .ok (some x) :=
    hx ▸ h.fetch_root o.root
  apply Op.commit_of_error
  exact Files.reconcile_stranger hopen hfetch (fun hin => hout ⟨x, hx, hin⟩) now

end StoredIn

theorem Mutual.not_lists (h : g.Mutual) (hc : g.clients c = none) : ¬ g.Lists r c := by
  rw [h r c]
  simp [Joined, hc]

/-! ### What a deed does -/

theorem Step.lists_iff (h : g.Step secrets (some d) g') (r : String) (c : Uuid) :
    g'.Lists r c ↔
      (d.removesClient c || d.removesRoot r) = false ∧ (d.joins r c = true ∨ g.Lists r c) := by
  cases h with
  | clientRegistered =>
    show g.Lists r c ↔ _
    simp [Deed.removesClient, Deed.removesRoot, Deed.joins]
  | clientRemoved =>
    rw [lists_withoutClients]
    simp [Deed.removesClient, Deed.removesRoot, Deed.joins, and_comm]
  | clientsRemoved =>
    rw [lists_withoutClients]
    simp [Deed.removesClient]
  | rootRegistered hnew hmembers =>
    rw [lists_setRoot_new hnew hmembers]
    simp [Deed.removesClient, Deed.removesRoot, Deed.joins]
  | rootJoined hx =>
    rw [lists_enrol hx]
    simp [Deed.removesClient, Deed.removesRoot, Deed.joins, or_comm]
  | secretChanged hx =>
    rw [lists_setRoot_rotated hx]
    simp [Deed.removesClient, Deed.removesRoot, Deed.joins]
  | rootRemoved =>
    rw [lists_withoutRoots]
    simp [Deed.removesClient, Deed.removesRoot, Deed.joins, and_comm]
  | rootsRemoved =>
    rw [lists_withoutRoots]
    simp [Deed.removesRoot]

theorem Step.client_iff (h : g.Step secrets (some d) g') (c : Uuid) :
    (g'.clients c).isSome = true ↔
      d.removesClient c = false ∧
        (d.registersClient c = true ∨ (g.clients c).isSome = true) := by
  cases h with
  | @clientRegistered id =>
    by_cases hc : c = id
    · simp [setClient, Deed.removesClient, Deed.registersClient, hc]
    · simp [setClient, Deed.removesClient, Deed.registersClient, hc]
  | @clientRemoved id =>
    by_cases hc : c = id
    · simp [withoutClients, Deed.removesClient, hc]
    · simp [withoutClients, Deed.removesClient, Deed.registersClient, hc]
  | clientsRemoved => simp [withoutClients, Deed.removesClient]
  | rootRegistered => simp [setRoot, Deed.removesClient, Deed.registersClient]
  | @rootJoined q id x y hx hy =>
    rw [enrol_eq hx hy]
    by_cases hc : c = id
    · simp [setClient, Deed.removesClient, Deed.registersClient, hc, hy]
    · simp [setClient, setRoot, Deed.removesClient, Deed.registersClient, hc]
  | secretChanged => simp [setRoot, Deed.removesClient, Deed.registersClient]
  | rootRemoved => simp [withoutRoots, Deed.removesClient, Deed.registersClient]
  | rootsRemoved => simp [withoutRoots, Deed.removesClient, Deed.registersClient]

theorem Step.root_iff (h : g.Step secrets (some d) g') (r : String) :
    (g'.roots r).isSome = true ↔
      d.removesRoot r = false ∧ (d.registersRoot r = true ∨ (g.roots r).isSome = true) := by
  cases h with
  | clientRegistered => simp [setClient, Deed.removesRoot, Deed.registersRoot]
  | clientRemoved => simp [withoutClients, Deed.removesRoot, Deed.registersRoot]
  | clientsRemoved => simp [withoutClients, Deed.removesRoot, Deed.registersRoot]
  | @rootRegistered path =>
    by_cases hr : r = path
    · simp [setRoot, Deed.removesRoot, Deed.registersRoot, hr]
    · simp [setRoot, Deed.removesRoot, Deed.registersRoot, hr]
  | @rootJoined q id x y hx hy =>
    rw [enrol_eq hx hy]
    by_cases hr : r = q
    · simp [setClient, setRoot, Deed.removesRoot, Deed.registersRoot, hr, hx]
    · simp [setClient, setRoot, Deed.removesRoot, Deed.registersRoot, hr]
  | @secretChanged q password kept salt x hx =>
    by_cases hr : r = q
    · simp [setRoot, Deed.removesRoot, Deed.registersRoot, hr, hx]
    · simp [setRoot, Deed.removesRoot, Deed.registersRoot, hr]
  | @rootRemoved path =>
    by_cases hr : r = path
    · simp [withoutRoots, Deed.removesRoot, hr]
    · simp [withoutRoots, Deed.removesRoot, Deed.registersRoot, hr]
  | rootsRemoved => simp [withoutRoots, Deed.removesRoot]

/-- A new password changes no membership. -/
theorem Step.lists_of_spared {d : Option Deed} (h : g.Step secrets d g')
    (hd : ∀ e ∈ d, ∃ path password, e = .secretChanged path password) (r : String) (c : Uuid) :
    g'.Lists r c ↔ g.Lists r c := by
  cases d with
  | none =>
    cases h with
    | idle => exact Iff.rfl
  | some d =>
    obtain ⟨path, password, rfl⟩ := hd d rfl
    rw [h.lists_iff]
    simp [Deed.removesClient, Deed.removesRoot, Deed.joins]

/-- A root that is registered has no members. -/
theorem Step.not_lists_new {path password : String}
    (h : g.Step secrets (some (.rootRegistered path password)) g') (c : Uuid) :
    ¬ g'.Lists path c := by
  cases h with
  | rootRegistered hnew hmembers => simp [setRoot, Lists, hmembers]

/-! ### What a run does -/

/-- What every deed ends or begins, or else leaves as it is, holds after a run if it was begun
    and has not been ended since. -/
theorem Trace.since_iff {P : Roster → Prop} {ends starts : Deed → Bool} (hempty : ¬ P .empty)
    (hstep : ∀ {secrets g d g'}, g.Step secrets (some d) g' →
      (P g' ↔ ends d = false ∧ (starts d = true ∨ P g)))
    (h : Trace S ds g) : P g ↔ since ds ends starts = true := by
  -- on the trace: an idle step adds no deed, and a deed does the same to both sides
  induction h with
  | start => simp [since, lately, hempty]
  | @next ds g g' secrets d _ _ hdeed ih =>
    cases d with
    | none =>
      cases hdeed with
      | idle =>
        rw [Option.toList_none, List.append_nil]
        exact ih
    | some d =>
      rw [Option.toList_some, since_append, ← ih]
      exact hstep hdeed

theorem Trace.lists_iff (h : Trace S ds g) (r : String) (c : Uuid) :
    g.Lists r c ↔
      since ds (fun d => d.removesClient c || d.removesRoot r) (·.joins r c) = true := by
  apply h.since_iff
  · simp [Lists, empty]
  · exact fun hdeed => hdeed.lists_iff r c

theorem Trace.client_iff (h : Trace S ds g) (c : Uuid) :
    (g.clients c).isSome = true ↔ since ds (·.removesClient c) (·.registersClient c) = true := by
  apply h.since_iff (P := fun g => (g.clients c).isSome = true)
  · simp [empty]
  · exact fun hdeed => hdeed.client_iff c

theorem Trace.root_iff (h : Trace S ds g) (r : String) :
    (g.roots r).isSome = true ↔ since ds (·.removesRoot r) (·.registersRoot r) = true := by
  apply h.since_iff (P := fun g => (g.roots r).isSome = true)
  · simp [empty]
  · exact fun hdeed => hdeed.root_iff r

end Roster

/-! ### What the next call does -/

namespace Session.Traced

variable {S : PasswordScheme → Prop} {s : Session} {log : List Event} {n : Nat} {g : Roster}

/-- A root that was just registered has no members on either side. -/
theorem new_root_empty (h : s.Traced S log n g) (hn : n + 1 < 2 ^ 64)
    {path owner password : String} {salt : Bytes}
    (hq : (Call.registerRoot path owner password salt now).Storable) {reply : Reply}
    (hreply : (s.serve (.registerRoot path owner password salt now)).1 = .ok reply) (c : Uuid) :
    ¬ RootLists (s.serve (.registerRoot path owner password salt now)).2.records path c ∧
      ¬ ClientLists (s.serve (.registerRoot path owner password salt now)).2.records c path := by
  obtain ⟨g', h', hstep⟩ := h.serve hq nofun hn fun _ _ hcall => nomatch hcall
  have hdeed : (eventOf s (.registerRoot path owner password salt now)).deed?
      = some (.rootRegistered path password) := by
    simp [Event.deed?, eventOf, hreply]
  rw [hdeed] at hstep
  rw [h'.stored.rootLists_iff, h'.stored.clientLists_iff, ← h'.trace.mutual path c]
  exact ⟨hstep.not_lists_new c, hstep.not_lists_new c⟩

theorem members_spared (h : s.Traced S log n g) (hn : n + 1 < 2 ^ 64) {q : Call}
    (hspares : q.SparesMembers) (hq : q.Storable) (r : String) (c : Uuid) :
    (RootLists (s.serve q).2.records r c ↔ RootLists s.records r c) ∧
      (ClientLists (s.serve q).2.records c r ↔ ClientLists s.records c r) := by
  have hnew : ∀ id ∈ q.newcomer?, g.clients id = none := by
    rw [Call.newcomer?_of_spares hspares]
    exact nofun
  have hopen : ∀ c p, q = .restart c → s.engine.schemes.passwords c.security = .ok p → S p := by
    rintro c p rfl
    exact hspares.elim
  obtain ⟨g', h', hstep⟩ := h.serve hq hnew hn hopen
  have hsame := hstep.lists_of_spared (Event.deed?_of_spares hspares) r c
  rw [h'.stored.rootLists_iff, h'.stored.clientLists_iff, h.stored.rootLists_iff,
    h.stored.clientLists_iff, ← h.trace.mutual r c, ← h'.trace.mutual r c]
  exact ⟨hsame, hsame⟩

end Session.Traced

/-- **Membership is the same on both sides, and what the run says.**  After any run a client is in
    the record of a root exactly if the root is in the record of the client, and exactly if both
    are registered and the client has joined the root and neither was removed since.  Who is
    registered is what the run says too.

    So a root that is registered next has no members, whatever was registered there before; an
    observation that is well-formed is refused on every root to a client that is not registered
    (any more), with nothing written; and new passwords, observations and removals of files leave
    membership as it is, whether they succeed or fail. -/
theorem membership_of_run {e : Engine} {cs : List Call} (h : Session.Feasible e cs) :
    let s := (Session.fresh e).run cs
    let ds := deeds ((Session.fresh e).events cs)
    (∀ r c, (RootLists s.records r c ↔ ClientLists s.records c r) ∧
      (RootLists s.records r c ↔
        s.records.has (.root r) = true ∧ s.records.has (.client c) = true ∧
          since ds (fun d => d.removesClient c || d.removesRoot r) (·.joins r c) = true)) ∧
    (∀ c, s.records.has (.client c) = since ds (·.removesClient c) (·.registersClient c)) ∧
    (∀ r, s.records.has (.root r) = since ds (·.removesRoot r) (·.registersRoot r)) ∧
    (∀ path owner password salt now reply,
      let q := Call.registerRoot path owner password salt now
      q.Storable → (s.serve q).1 = .ok reply →
        ∀ c, ¬ RootLists (s.serve q).2.records path c ∧ ¬ ClientLists (s.serve q).2.records c path) ∧
    (∀ (o : Observation) now, o.refusal? = none → s.records.has (.root o.root) = true →
      s.records.has (.client o.client) = false →
        Files.observe o now s.records
          = ⟨[], .error (.unauthorized (.notMember o.client o.root))⟩ ∧
        s.engine.recordEvent o now s.records
          = ⟨[], .error (.unauthorized (.notMember o.client o.root))⟩) ∧
    ∀ q : Call, q.SparesMembers → q.Storable → ∀ r c,
      (RootLists (s.serve q).2.records r c ↔ RootLists s.records r c) ∧
      (ClientLists (s.serve q).2.records c r ↔ ClientLists s.records c r) := by
  intro s ds
  obtain ⟨g, hg⟩ := Session.traced_run h
  have hstored := hg.stored
  have hmutual := hg.trace.mutual
  have hcount : cs.length + 1 < 2 ^ 64 := by
    have := h.count
    omega
  refine ⟨?_, ?_, ?_, ?_, ?_, ?_⟩
  · intro r c
    rw [hstored.rootLists_iff, hstored.clientLists_iff]
    refine ⟨hmutual r c, ?_⟩
    rw [hstored.has_root, hstored.has_client, ← hg.trace.lists_iff]
    refine ⟨?_, fun hall => hall.2.2⟩
    intro hlists
    obtain ⟨y, hy, -⟩ := (hmutual r c).1 hlists
    obtain ⟨x, hx, hin⟩ := hlists
    exact ⟨hx ▸ rfl, hy ▸ rfl, x, hx, hin⟩
  · intro c
    rw [hstored.has_client, Bool.eq_iff_iff]
    exact hg.trace.client_iff c
  · intro r
    rw [hstored.has_root, Bool.eq_iff_iff]
    exact hg.trace.root_iff r
  · intro path owner password salt now reply q hq hreply c
    exact hg.new_root_empty hcount hq hreply c
  · intro o now hopen hroot hclient
    rw [hstored.has_client, Option.isSome_eq_false_iff, Option.isNone_iff_eq_none] at hclient
    have hobserve := hstored.observe_stranger hopen hroot (hmutual.not_lists hclient) now
    exact ⟨hobserve, Attempt.run_unauthorized hobserve⟩
  · intro q hspares hq r c
    exact hg.members_spared hcount hspares hq r c

/-! ### A run -/

namespace Session

/-- Sixteen bytes to hash a password with. -/
def salt : Bytes := List.replicate 16 0

/-- Two clients join a root, which is removed and registered again.  One joins again; then the
    other is removed. -/
def registeredTwice : List Call :=
  [.registerClient ⟨1⟩ "a" ⟨0, 0⟩, .registerClient ⟨2⟩ "b" ⟨0, 0⟩,
    .registerRoot "r" "o" "s" salt ⟨0, 0⟩, .joinRoot "r" ⟨1⟩ "s", .joinRoot "r" ⟨2⟩ "s",
    .removeRoot "r", .registerRoot "r" "o" "p" salt ⟨0, 0⟩, .joinRoot "r" ⟨2⟩ "p",
    .joinRoot "r" ⟨1⟩ "s", .removeClient ⟨1⟩]

theorem bounded_plainSecrets : plainSecrets.Bounded := by
  intro salt password kept _ hpassword hkept
  unfold PasswordScheme.hash at hkept
  split at hkept
  · contradiction
  · obtain rfl := Except.ok.inj hkept
    exact hpassword

theorem storable_plain : plain.Storable where
  secrets := bounded_plainSecrets
  schemes := by
    rintro c _ ⟨⟩
    exact bounded_plainSecrets
  default := nofun

theorem storable_registerClient {id : Uuid} {address : String} (h : Held address) :
    (Call.registerClient id address ⟨0, 0⟩).Storable :=
  ⟨h, by decide, by decide⟩

theorem storable_registerRoot {path password : String} (hpath : Held path)
    (hpassword : Held password) :
    (Call.registerRoot path "o" password salt ⟨0, 0⟩).Storable :=
  ⟨hpath, by decide, hpassword, rfl, by decide, by decide⟩

theorem registeredTwice_feasible : Feasible plain registeredTwice where
  engine := storable_plain
  calls := by
    simp only [registeredTwice, List.forall_mem_cons]
    exact ⟨storable_registerClient (by decide), storable_registerClient (by decide),
      storable_registerRoot (by decide) (by decide), trivial, trivial, trivial,
      storable_registerRoot (by decide) (by decide), trivial, trivial, trivial, nofun⟩
  fresh := by decide
  count := by decide

end Session

/-- Only the client that joined the second root is a member of it, and the other is refused. -/
theorem members_of_registeredTwice :
    let s := (Session.fresh Session.plain).run Session.registeredTwice
    Session.Feasible Session.plain Session.registeredTwice ∧
      ClientLists s.records ⟨2⟩ "r" ∧ ¬ RootLists s.records "r" ⟨1⟩ ∧
      s.engine.recordEvent { root := "r", path := "p", client := ⟨1⟩, hash := "h", stamp := .next }
        ⟨0, 0⟩ s.records = ⟨[], .error (.unauthorized (.notMember ⟨1⟩ "r"))⟩ := by
  intro s
  have hall := membership_of_run Session.registeredTwice_feasible
  have hboth := hall.1
  have hclient := hall.2.1
  have hroot := hall.2.2.1
  have hrefused := hall.2.2.2.2.1
  -- the join with the password of the first root was refused
  have hdeeds : deeds ((Session.fresh Session.plain).events Session.registeredTwice) =
      [.clientRegistered ⟨1⟩, .clientRegistered ⟨2⟩, .rootRegistered "r" "s",
        .rootJoined "r" ⟨1⟩, .rootJoined "r" ⟨2⟩, .rootRemoved "r", .rootRegistered "r" "p",
        .rootJoined "r" ⟨2⟩, .clientRemoved ⟨1⟩] := by decide +kernel
  rw [hdeeds] at hboth hclient hroot
  have hr : s.records.has (.root "r") = true := (hroot "r").trans (by decide)
  have hone : s.records.has (.client ⟨1⟩) = false := (hclient ⟨1⟩).trans (by decide)
  have htwo : s.records.has (.client ⟨2⟩) = true := (hclient ⟨2⟩).trans (by decide)
  refine ⟨Session.registeredTwice_feasible, ?_, ?_, ?_⟩
  · rw [← (hboth "r" ⟨2⟩).1, (hboth "r" ⟨2⟩).2]
    exact ⟨hr, htwo, by decide⟩
  · rw [(hboth "r" ⟨1⟩).2, hone]
    exact fun hboth => absurd hboth.2.1 Bool.false_ne_true
  · exact (hrefused { root := "r", path := "p", client := ⟨1⟩, hash := "h", stamp := .next }
      ⟨0, 0⟩ rfl hr hone).2

end SyncLedger
