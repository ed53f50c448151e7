/-
  SyncLedger/Proofs/RosterRuns.lean
  =================================
  **Runs of calls, and the roster that they leave behind.**  `Roster.Step` says what each deed does
  to the roster; a call that fails, or that has nothing to do with clients and roots, does nothing
  to it.  `Roster.Trace` strings such steps together.  What holds of every run is then an
  induction over its trace, in which no table appears.

  `Roster.StoredIn.serve` is the step from tables to rosters, `traced_run` the run.  It asks that
  what the calls bring can be stored, that identities of clients are new (`Session.Feasible`) and
  nothing else: names may have any length that can be written down.  Of the engine it asks what every
  engine has that the program opens (`Engine.storable_standard`).
-/
import SyncLedger.Proofs.Deeds
import SyncLedger.Proofs.Registrations
import SyncLedger.Proofs.Secrets

namespace SyncLedger

open Journal.StoredIn (eventOf)

/-! ### What a run may bring -/

/-- The password schemes are bounded, that in use and any that other settings choose, and the
    password to which resets go back can be stored. -/
structure Engine.Storable (e : Engine) : Prop where
  secrets : e.secrets.Bounded
  schemes : e.schemes.Bounded
  default : ∀ p ∈ e.config.security.defaultPassword, Held p

/-- What a call brings to the registry can be stored, and salts have their sixteen bytes. -/
def Call.Storable : Call → Prop
  | .registerClient _ address now => Held address ∧ now.Representable
  | .registerRoot path owner password salt now =>
    Held path ∧ Held owner ∧ Held password ∧ salt.length = 16 ∧ now.Representable
  | .setPassword _ password salt => Held password ∧ salt.length = 16
  | .resetPassword _ _ salt => salt.length = 16
  | .restart c => ∀ p ∈ c.security.defaultPassword, Held p
  | _ => True

/-- The identity that a call registers. -/
def Call.newcomer? : Call → Option Uuid
  | .registerClient id _ _ => some id
  | _ => none

/-- What the calls bring can be stored, and each identity is given to one client.  The number of
    calls bounds the sizes of sets, which have eight bytes; there is room for more calls. -/
structure Session.Feasible (e : Engine) (cs : List Call) : Prop where
  engine : e.Storable
  calls : ∀ q ∈ cs, q.Storable
  fresh : (cs.filterMap Call.newcomer?).Nodup
  count : cs.length < 2 ^ 63

/-- The password schemes of a run: that of its first engine, and those that the settings of its
    restarts choose. -/
def Session.Uses (e : Engine) (cs : List Call) (secrets : PasswordScheme) : Prop :=
  secrets = e.secrets ∨ ∃ c, .restart c ∈ cs ∧ e.schemes.passwords c.security = .ok secrets

/-- What the program opens is storable, if the default password is. -/
theorem Engine.storable_standard {c : Config} {e : Engine} (h : Engine.ofConfig c = .ok e)
    (hc : ∀ p ∈ c.security.defaultPassword, Held p) : e.Storable := by
  obtain ⟨secrets, hs, rfl⟩ := Engine.ofConfig_ok h
  exact ⟨Schemes.bounded_standard c.security secrets hs, Schemes.bounded_standard, hc⟩

/-- What an engine needs is there after a call too, also if the call opens another engine. -/
theorem Engine.Storable.serve {s : Session} {q : Call} (h : s.engine.Storable) (hq : q.Storable) :
    (s.serve q).2.engine.Storable := by
  rcases s.engine_serve q with hsame | ⟨c, rfl, hopen⟩
  · exact hsame ▸ h
  · obtain ⟨secrets, hs, he⟩ := Engine.ofConfig_ok hopen
    rw [he]
    exact ⟨h.schemes c.security secrets hs, h.schemes, hq⟩

/-- The password that a reset puts in place can be stored. -/
theorem Engine.Storable.held_reset {e : Engine} (h : e.Storable) (random : Bytes) :
    Held (e.config.security.defaultPassword.getD
      (Secret.generate e.config.security.generatedPasswordLength.toNat random)) := by
  cases hdefault : e.config.security.defaultPassword with
  | none => exact Secret.held_generate _ random
  | some p => exact h.default p hdefault

/-- Opening an engine touches neither clients nor roots. -/
theorem SameRegistry.openOver {config : Config} {k : Schemes} {e : Engine} {db db' : Database}
    (h : Engine.openOver config db k = .ok (e, db')) : SameRegistry db.records db'.records := by
  obtain ⟨-, rfl⟩ := Engine.openOver_ok h
  exact (SameRegistry.keeps_pending e.batch).final (.refl _)

/-! ### Steps -/

namespace Roster

/-- What a deed does to a roster; nothing happens to it where nothing is done. -/
inductive Step (secrets : PasswordScheme) (g : Roster) : Option Deed → Roster → Prop where
  | idle : Step secrets g none g
  | clientRegistered {id : Uuid} {y : Client} (hnew : g.clients id = none)
      (hroots : y.roots = .empty) :
      Step secrets g (some (.clientRegistered id)) (g.setClient id (some y))
  | clientRemoved {id : Uuid} {y : Client} (hy : g.clients id = some y) :
      Step secrets g (some (.clientRemoved id)) (g.withoutClients (· == id))
  | clientsRemoved : Step secrets g (some .clientsRemoved) (g.withoutClients fun _ => true)
  | rootRegistered {path password : String} {salt : Bytes} {x : Root}
      (hnew : g.roots path = none) (hmembers : x.members = .empty) (hepoch : x.epoch = 0)
      (hsalt : salt.length = 16) (hkept : secrets.hash salt password = .ok x.passwordHash) :
      Step secrets g (some (.rootRegistered path password)) (g.setRoot path (some x))
  | rootJoined {r : String} {id : Uuid} {x : Root} {y : Client} (hx : g.roots r = some x)
      (hy : g.clients id = some y) : Step secrets g (some (.rootJoined r id)) (g.enrol r id)
  | secretChanged {r password kept : String} {salt : Bytes} {x : Root} (hx : g.roots r = some x)
      (hsalt : salt.length = 16) (hkept : secrets.hash salt password = .ok kept) :
      Step secrets g (some (.secretChanged r password))
        (g.setRoot r (some { x with passwordHash := kept, epoch := x.epoch + 1 }))
  | rootRemoved {r : String} {x : Root} (hx : g.roots r = some x) :
      Step secrets g (some (.rootRemoved r)) (g.withoutRoots (· == r))
  | rootsRemoved : Step secrets g (some .rootsRemoved) (g.withoutRoots fun _ => true)

variable {secrets : PasswordScheme} {g g' : Roster} {d : Option Deed} {n : Nat} {t : Records}
  {id : Uuid}

/-- A record that is replaced by one with the same members changes no membership. -/
theorem lists_setRoot_of_same {r : String} {z : Root} (hsame : ∀ c, c ∈ z.members ↔ g.Lists r c)
    (q : String) (c : Uuid) : (g.setRoot r (some z)).Lists q c ↔ g.Lists q c := by
  rw [lists_setRoot]
  split
  · rename_i hq
    subst hq
    simpa using hsame c
  · exact Iff.rfl

theorem lists_setRoot_new {r : String} {z : Root} (hnew : g.roots r = none)
    (hz : z.members = .empty) (q : String) (c : Uuid) :
    (g.setRoot r (some z)).Lists q c ↔ g.Lists q c := by
  apply lists_setRoot_of_same
  intro c
  simp [hz, Lists, hnew]

theorem lists_setRoot_rotated {r kept : String} {k : UInt64} {x : Root} (hx : g.roots r = some x)
    (q : String) (c : Uuid) :
    (g.setRoot r (some { x with passwordHash := kept, epoch := k })).Lists q c ↔ g.Lists q c := by
  apply lists_setRoot_of_same
  intro c
  simp [Lists, hx]

theorem Step.mutual (h : g.Step secrets d g') (hm : g.Mutual) : g'.Mutual := by
  cases h with
  | idle => exact hm
  | @clientRegistered id y hnew hroots =>
    intro q c
    show g.Lists q c ↔ _
    rw [joined_setClient, hm q c]
    split
    · rename_i hc
      subst hc
      simp [Joined, hnew, hroots]
    · exact Iff.rfl
  | clientRemoved => exact hm.withoutClients _
  | clientsRemoved => exact hm.withoutClients _
  | rootRegistered hnew hmembers =>
    exact fun q c => (lists_setRoot_new hnew hmembers q c).trans (hm q c)
  | rootJoined hx hy => exact hm.enrol hx hy
  | secretChanged hx => exact fun q c => (lists_setRoot_rotated hx q c).trans (hm q c)
  | rootRemoved => exact hm.withoutRoots _
  | rootsRemoved => exact hm.withoutRoots _

/-- Clients are new only where one is registered. -/
theorem Step.newcomer (h : g.Step secrets d g') (hid : g.clients id = none)
    (hd : d ≠ some (.clientRegistered id)) : g'.clients id = none := by
  cases h with
  | idle => exact hid
  | @clientRegistered c =>
    have hne : id ≠ c := by
      rintro rfl
      exact hd rfl
    exact (Function.update_of_ne hne _ _).trans hid
  | clientRemoved => simp [withoutClients, hid]
  | clientsRemoved => rfl
  | rootRegistered => exact hid
  | @rootJoined r c x y hx hy =>
    have hne : id ≠ c := by
      rintro rfl
      rw [hid] at hy
      contradiction
    exact (Function.update_of_ne hne _ _).trans hid
  | secretChanged => exact hid
  | rootRemoved => simp [withoutRoots, hid]
  | rootsRemoved => simp [withoutRoots, hid]

/-! ### From tables to rosters -/

namespace StoredIn

variable {s : Session} {q : Call}

/-- A call that is one operation. -/
theorem serve_perform {α : Type} {op : Op α} {wrap : α → Reply} {u : Session}
    (hserve : s.serve q = u.perform op wrap) {a : Except Error α}
    (hop : op.outcome u.records = (a, t)) (hstored : g'.StoredIn (n + 1) t)
    (hstep : g.Step secrets (Event.mk q (a.map wrap) t).deed? g') :
    ∃ g', g'.StoredIn (n + 1) (s.serve q).2.records ∧
      g.Step secrets (eventOf s q).deed? g' := by
  refine ⟨g', ?_, ?_⟩
  · rw [hserve, Session.perform_eq hop]
    exact hstored
  · rw [eventOf, hserve, Session.perform_eq hop]
    exact hstep

/-- A call that has nothing to do with clients and roots. -/
theorem serve_apart (h : g.StoredIn n s.records) (hn : n + 1 < 2 ^ 64)
    (hsame : SameRegistry s.records (s.serve q).2.records) (hidle : (eventOf s q).deed? = none) :
    ∃ g', g'.StoredIn (n + 1) (s.serve q).2.records ∧
      g.Step secrets (eventOf s q).deed? g' := by
  refine ⟨g, (h.mono (Nat.le_succ n) hn).sameRegistry hsame, ?_⟩
  rw [hidle]
  exact .idle

/-- A new password, chosen or drawn. -/
theorem serve_rotation (h : g.StoredIn n s.records) (hn : n + 1 < 2 ^ 64)
    (hs : secrets.Bounded) {r password : String} {salt : Bytes} (hpassword : Held password)
    (hsalt : salt.length = 16) :
    (∃ e, (Roots.setPassword secrets r password salt).outcome s.records = (.error e, s.records)) ∨
      ∃ x kept t, g.roots r = some x ∧ secrets.hash salt password = .ok kept ∧
        (Roots.setPassword secrets r password salt).outcome s.records = (.ok (x.epoch + 1), t) ∧
        (g.setRoot r (some { x with passwordHash := kept, epoch := x.epoch + 1 })).StoredIn
          (n + 1) t := by
  cases hkept : secrets.hash salt password with
  | error e => exact Or.inl ⟨e, Op.outcome_of_run (setPassword_refused hkept r _)⟩
  | ok kept =>
    cases hx : g.roots r with
    | none => exact Or.inl ⟨_, Op.outcome_of_run (h.setPassword_missing_root hx hkept)⟩
    | some x =>
      obtain ⟨t, ht, hstored⟩ :=
        h.setPassword_ok hx hkept (hs salt password kept hsalt hpassword hkept)
      exact Or.inr ⟨x, kept, t, rfl, rfl, Op.outcome_of_run ht, hstored.mono (Nat.le_succ n) hn⟩

theorem serve_restart (s : Session) (c : Config) :
    SameRegistry s.records (s.serve (.restart c)).2.records := by
  simp only [Session.serve]
  split
  · rename_i hopen
    exact SameRegistry.openOver hopen
  · exact SameRegistry.refl _

/-- Serving a call turns a table that stores a roster into one that stores the roster after a
    step. -/
theorem serve (h : g.StoredIn n s.records) (hm : g.Mutual) (he : s.engine.Storable)
    (hq : q.Storable) (hfresh : ∀ id ∈ q.newcomer?, g.clients id = none) (hn : n + 1 < 2 ^ 64) :
    ∃ g', g'.StoredIn (n + 1) (s.serve q).2.records ∧
      g.Step s.engine.secrets (eventOf s q).deed? g' := by
  have hnext := Nat.le_succ n
  have hkeep : ∀ {t}, SameRegistry s.records t → g.StoredIn (n + 1) t := fun hs =>
    (h.mono hnext hn).sameRegistry hs
  cases q with
  | registerClient id address now =>
    obtain ⟨y, u, hu, hroots, hstored⟩ :=
      h.register_client id (s.db.issued + 1) hq.1 hq.2
    exact serve_perform (u := ⟨s.engine, { s.db with issued := s.db.issued + 1 }⟩) rfl
      (Op.outcome_of_run hu) (hstored.mono hnext hn) (.clientRegistered (hfresh id rfl) hroots)
  | removeClient id =>
    cases hy : g.clients id with
    | none =>
      exact serve_perform rfl (Op.outcome_of_run (h.remove_missing_client hy))
        (hkeep (.refl _)) .idle
    | some y =>
      obtain ⟨u, hu, hstored⟩ := h.outcome_remove_client hm hy
      exact serve_perform rfl hu (hstored.mono hnext hn) (.clientRemoved hy)
  | removeAllClients =>
    obtain ⟨k, u, hu, hstored⟩ := h.removeAll_clients hm
    exact serve_perform rfl hu (hstored.mono hnext hn) .clientsRemoved
  | registerRoot path owner password salt now =>
    obtain ⟨hpath, howner, hpassword, hsalt, hnow⟩ := hq
    rcases h.register_root hpath howner (fun kept => he.secrets salt password kept hsalt hpassword)
      hnow with ⟨e, hrefused⟩ | ⟨x, u, hu, hnew, hmembers, hepoch, hkept, hstored⟩
    · exact serve_perform rfl (Op.outcome_of_run hrefused) (hkeep (.refl _)) .idle
    · exact serve_perform rfl (Op.outcome_of_run hu) (hstored.mono hnext hn)
        (.rootRegistered hnew hmembers hepoch hsalt hkept)
  | joinRoot r id password =>
    rcases h.join_cases hn s.engine.secrets r id password with
      ⟨e, hrefused⟩ | ⟨x, y, z, u, hx, hy, hu, hstored⟩
    · exact serve_perform rfl (Op.outcome_of_run hrefused) (hkeep (.refl _)) .idle
    · exact serve_perform rfl (Op.outcome_of_run hu) hstored (.rootJoined hx hy)
  | setPassword r password salt =>
    rcases h.serve_rotation hn he.secrets (r := r) hq.1 hq.2 with
      ⟨e, hrefused⟩ | ⟨x, kept, u, hx, hkept, hu, hstored⟩
    · exact serve_perform rfl hrefused (hkeep (.refl _)) .idle
    · exact serve_perform rfl hu hstored (.secretChanged hx hq.2 hkept)
  | resetPassword r random salt =>
    rcases h.serve_rotation hn he.secrets (r := r) (he.held_reset random) hq with
      ⟨e, hrefused⟩ | ⟨x, kept, u, hx, hkept, hu, hstored⟩
    · exact serve_perform rfl (Op.outcome_bind_error hrefused) (hkeep (.refl _)) .idle
    · exact serve_perform rfl (Op.outcome_bind_ok hu) hstored (.secretChanged hx hq hkept)
  | observe o now => exact h.serve_apart hn (SameRegistry.observe o now s.records) rfl
  | recordEvent o now => exact h.serve_apart hn (SameRegistry.attempt _ now s.records) rfl
  | removeFile r p =>
    exact h.serve_apart hn ((SameRegistry.keeps_removeFile r p _).final (.refl _)) rfl
  | removeAllFiles scope =>
    exact h.serve_apart hn ((SameRegistry.keeps_removeAllFiles scope _).final (.refl _)) rfl
  | removeRoot r =>
    cases hx : g.roots r with
    | none =>
      exact serve_perform rfl (h.remove_missing_root hx _) (hkeep (.refl _)) .idle
    | some x =>
      obtain ⟨k, u, hu, hstored⟩ := h.remove_root hm hx s.engine.batch
      exact serve_perform rfl hu (hstored.mono hnext hn) (.rootRemoved hx)
  | removeAllRoots =>
    obtain ⟨k, u, hu, hstored⟩ := h.removeAll_roots hm s.engine.batch
    exact serve_perform rfl hu (hstored.mono hnext hn) .rootsRemoved
  | sweepOrphans =>
    exact h.serve_apart hn ((SameRegistry.keeps_orphans _).final (.refl _)) rfl
  | putContent data => exact h.serve_apart hn (.refl _) rfl
  | removeContent hash => exact h.serve_apart hn (.refl _) rfl
  | restart c => exact h.serve_apart hn (serve_restart s c) rfl

end StoredIn

/-! ### Runs -/

/-- The deeds that lead to a roster, each of them a step under a scheme of the run. -/
inductive Trace (S : PasswordScheme → Prop) : List Deed → Roster → Prop where
  | start : Trace S [] .empty
  | next {ds : List Deed} {g g' : Roster} {secrets : PasswordScheme} {d : Option Deed}
      (h : Trace S ds g) (hs : S secrets) (hstep : g.Step secrets d g') :
      Trace S (ds ++ d.toList) g'

theorem Trace.mutual {S : PasswordScheme → Prop} {ds : List Deed} (h : Trace S ds g) :
    g.Mutual := by
  induction h with
  | start => exact mutual_empty
  | next _ _ hstep ih => exact hstep.mutual ih

end Roster

namespace Session

variable {S : PasswordScheme → Prop} {s : Session} {log : List Event} {n : Nat} {g : Roster}
  {q : Call}

/-- A session whose table stores the roster to which the deeds so far have led. -/
structure Traced (S : PasswordScheme → Prop) (s : Session) (log : List Event) (n : Nat)
    (g : Roster) : Prop where
  stored : g.StoredIn n s.records
  trace : Roster.Trace S (deeds log) g
  engine : s.engine.Storable
  secrets : S s.engine.secrets

/-- Who is registered is whom the call names. -/
theorem newcomer_of_deed {id : Uuid} (h : (eventOf s q).deed? = some (.clientRegistered id)) :
    q.newcomer? = some id := by
  obtain ⟨address, now, hcall⟩ := Event.call_of_clientRegistered h
  obtain rfl : q = .registerClient id address now := hcall
  rfl

namespace Traced

theorem serve (h : s.Traced S log n g) (hq : q.Storable)
    (hfresh : ∀ id ∈ q.newcomer?, g.clients id = none) (hn : n + 1 < 2 ^ 64)
    (hschemes : ∀ c p, q = .restart c → s.engine.schemes.passwords c.security = .ok p → S p) :
    ∃ g', (s.serve q).2.Traced S (log ++ [eventOf s q]) (n + 1) g' ∧
      g.Step s.engine.secrets (eventOf s q).deed? g' := by
  obtain ⟨g', hstored, hstep⟩ := h.stored.serve h.trace.mutual h.engine hq hfresh hn
  have htrace : Roster.Trace S (deeds (log ++ [eventOf s q])) g' := by
    rw [deeds_append]
    exact h.trace.next h.secrets hstep
  refine ⟨g', ⟨hstored, htrace, h.engine.serve hq, ?_⟩, hstep⟩
  rcases engine_serve s q with hsame | ⟨c, hc, hopen⟩
  · exact hsame ▸ h.secrets
  · obtain ⟨secrets, hs, he⟩ := Engine.ofConfig_ok hopen
    rw [he]
    exact hschemes c secrets hc hs

theorem run (h : s.Traced S log n g) {qs : List Call} (hqs : ∀ q ∈ qs, q.Storable)
    (hfresh : (qs.filterMap Call.newcomer?).Nodup)
    (hnew : ∀ id ∈ qs.filterMap Call.newcomer?, g.clients id = none)
    (hn : n + qs.length < 2 ^ 64)
    (hschemes : ∀ c p, .restart c ∈ qs → s.engine.schemes.passwords c.security = .ok p → S p) :
    ∃ g', (s.run qs).Traced S (log ++ s.events qs) (n + qs.length) g' := by
  -- the calls to come register clients that the roster does not have yet
  induction qs generalizing s log n g with
  | nil =>
    refine ⟨g, ?_⟩
    simpa [Session.run, events] using h
  | cons q qs ih =>
    rw [List.length_cons] at hn
    have hfirst : ∀ id ∈ q.newcomer?, g.clients id = none := by
      intro id hid
      exact hnew id (List.mem_filterMap.2 ⟨q, List.mem_cons_self, hid⟩)
    obtain ⟨g', h', hstep⟩ := h.serve (hqs q List.mem_cons_self) hfirst (by omega) (by
      rintro c p rfl
      exact hschemes c p List.mem_cons_self)
    have hrest : ∀ id ∈ qs.filterMap Call.newcomer?, g'.clients id = none := by
      intro id hid
      obtain ⟨q', hq', hid'⟩ := List.mem_filterMap.1 hid
      apply hstep.newcomer (hnew id (List.mem_filterMap.2 ⟨q', List.mem_cons_of_mem q hq', hid'⟩))
      intro hdeed
      rw [List.filterMap_cons_some (newcomer_of_deed hdeed)] at hfresh
      exact (List.nodup_cons.1 hfresh).1 hid
    have hdistinct : (qs.filterMap Call.newcomer?).Nodup :=
      hfresh.sublist ((List.sublist_cons_self q qs).filterMap _)
    obtain ⟨g'', hrun⟩ := ih h' (fun q' hq' => hqs q' (List.mem_cons_of_mem q hq')) hdistinct hrest
      (by omega) (by
        rw [schemes_serve]
        exact fun c p hc => hschemes c p (List.mem_cons_of_mem q hc))
    refine ⟨g'', ?_⟩
    rw [List.length_cons, ← Nat.add_assoc, Nat.add_right_comm]
    rw [List.append_assoc] at hrun
    exact hrun

end Traced

/-- **Every run leaves the image of the roster to which its deeds lead.** -/
theorem traced_run {e : Engine} {cs : List Call} (h : Feasible e cs) :
    ∃ g, ((fresh e).run cs).Traced (Uses e cs) ((fresh e).events cs) cs.length g := by
  have hstart : (fresh e).Traced (Uses e cs) [] 0 .empty :=
    ⟨Roster.storedIn_empty, .start, h.engine, Or.inl rfl⟩
  have hcount := h.count
  obtain ⟨g, hg⟩ := hstart.run h.calls h.fresh (fun _ _ => rfl) (by omega)
    (fun c p hc hp => Or.inr ⟨c, hc, hp⟩)
  rw [Nat.zero_add, List.nil_append] at hg
  exact ⟨g, hg⟩

end Session

end SyncLedger
