/-
  SyncLedger/Proofs/Passwords.lean
  ================================
  **Only the current password opens a root.**  The current password is the one that the run gave
  the root last, when it was registered or since (`secretOf`), and the epoch counts how often it
  has been changed since then (`rotationsOf`).  `Step.root_cases` says what a deed does to what a
  root keeps; two inductions over the trace then say what a root keeps after any run.

  What a root keeps, how often that was changed and which passwords are refused says nothing about
  hashing.  Only for what opens a root is something assumed: among some passwords, each scheme of
  the run accepts of what any of them keeps the password that it was made of and no other
  (`PasswordScheme.Checks`).  The passwords may be all that there are, for a scheme that never
  confuses two; for Argon2id, which must, they may be any that have different digests
  (`Session.checks_of_standard`).
-/
import SyncLedger.Proofs.Failures
import SyncLedger.Proofs.HashingCosts
import SyncLedger.Proofs.Memberships

namespace SyncLedger

open Journal.StoredIn (eventOf)

variable {t : Records} {r : String} {c : Uuid}

/-- The password that a root was given last. -/
def secretOf (ds : List Deed) (r : String) : Option String := ds.reverse.findSome? (·.secretFor? r)

/-- How often a root's password has been changed since its registration. -/
def rotationsOf (ds : List Deed) (r : String) : Nat :=
  (lately ds (·.registersRoot r)).countP (·.rotates r)

section Append

variable {ds : List Deed} {d : Deed}

theorem secretOf_append : secretOf (ds ++ [d]) r = (d.secretFor? r).or (secretOf ds r) := by
  rw [secretOf, List.reverse_append, List.reverse_singleton, List.singleton_append,
    List.findSome?_cons]
  cases d.secretFor? r with
  | none => rfl
  | some w => rfl

theorem rotationsOf_append_of_registers (h : d.registersRoot r = true) :
    rotationsOf (ds ++ [d]) r = 0 := by
  rw [rotationsOf, lately_append_of_ends h, List.countP_nil]

theorem rotationsOf_append (h : d.registersRoot r = false) :
    rotationsOf (ds ++ [d]) r = rotationsOf ds r + if d.rotates r then 1 else 0 := by
  rw [rotationsOf, lately_append h, List.countP_cons]
  rfl

theorem rotationsOf_le (ds : List Deed) (r : String) : rotationsOf ds r ≤ ds.length :=
  List.countP_le_length.trans (length_lately_le ds _)

end Append

/-- A root keeps what the scheme makes of a password with some salt. -/
def Root.Keeps (x : Root) (secrets : PasswordScheme) (password : String) : Prop :=
  ∃ salt, salt.length = 16 ∧ secrets.hash salt password = .ok x.passwordHash

theorem Root.Keeps.verify {x : Root} {secrets secrets' : PasswordScheme} {among : Set String}
    {password w : String} (h : x.Keeps secrets password) (hchecks : secrets.Checks among secrets')
    (hpassword : password ∈ among) (hw : w ∈ among) :
    secrets'.verify w x.passwordHash = .ok (w == password) := by
  obtain ⟨salt, hsalt, hkept⟩ := h
  exact hchecks salt password x.passwordHash hsalt hpassword hkept w hw

/-- Among some passwords a root opens with one only.  With any other a join is refused, whoever
    joins; with this one it is refused to a client that is not registered, and otherwise makes the
    client a member, changes no other membership, and may be repeated. -/
structure Session.OpensWith (s : Session) (among : Set String) (r password : String) : Prop where
  wrong : ∀ c, ∀ w ∈ among, w ≠ password →
    s.engine.joinRoot r c w s.records = ⟨[], .error (.unauthorized (.wrongPassword r))⟩
  stranger : ∀ c, s.records.has (.client c) = false →
    s.engine.joinRoot r c password s.records = ⟨[], .error (.notFound (.client c))⟩
  member : ∀ c, s.records.has (.client c) = true →
    ∃ x t, s.engine.joinRoot r c password s.records = ⟨[t], .ok x⟩ ∧
      (∀ q d, RootLists t q d ↔ RootLists s.records q d ∨ (q = r ∧ d = c)) ∧
      (∀ d q, ClientLists t d q ↔ ClientLists s.records d q ∨ (q = r ∧ d = c)) ∧
      s.engine.joinRoot r c password t = ⟨[t], .ok x⟩

namespace Roster

variable {S : PasswordScheme → Prop} {secrets : PasswordScheme} {g g' : Roster} {n : Nat}
  {ds : List Deed} {d : Deed} {x x' : Root} {y : Client}

/-! ### What a run makes a root keep -/

/-- After a deed a root keeps what it kept before, or it has just been registered, or it has
    just been given another password. -/
theorem Step.root_cases (h : g.Step secrets (some d) g') (hx' : g'.roots r = some x') :
    (d.secretFor? r = none ∧ d.registersRoot r = false ∧ d.rotates r = false ∧
      ∃ x, g.roots r = some x ∧ x'.passwordHash = x.passwordHash ∧ x'.epoch = x.epoch) ∨
    (∃ w, d = .rootRegistered r w ∧ x'.Keeps secrets w ∧ x'.epoch = 0) ∨
    (∃ w x, d = .secretChanged r w ∧ x'.Keeps secrets w ∧ g.roots r = some x ∧
      x'.epoch = x.epoch + 1) := by
  cases h with
  | clientRegistered => exact Or.inl ⟨rfl, rfl, rfl, x', hx', rfl, rfl⟩
  | clientRemoved | clientsRemoved =>
    obtain ⟨x, hx, rfl⟩ := Option.map_eq_some_iff.1 hx'
    exact Or.inl ⟨rfl, rfl, rfl, x, hx, rfl, rfl⟩
  | @rootRegistered path password salt x hnew hmembers hepoch hsalt hkept =>
    by_cases hr : r = path
    · subst hr
      obtain rfl : x = x' := by simpa [setRoot] using hx'
      exact Or.inr (Or.inl ⟨password, rfl, ⟨salt, hsalt, hkept⟩, hepoch⟩)
    · simp only [setRoot, Function.update_of_ne hr] at hx'
      exact Or.inl ⟨by simp [Deed.secretFor?, hr], by simp [Deed.registersRoot, hr], rfl, x', hx',
        rfl, rfl⟩
  | @rootJoined q id x y hx hy =>
    rw [enrol_eq hx hy] at hx'
    by_cases hr : r = q
    · subst hr
      have hsame : { x with members := x.members.insert id } = x' := by
        simpa [setClient, setRoot] using hx'
      subst hsame
      exact Or.inl ⟨rfl, rfl, rfl, x, hx, rfl, rfl⟩
    · simp only [setClient, setRoot, Function.update_of_ne hr] at hx'
      exact Or.inl ⟨rfl, rfl, rfl, x', hx', rfl, rfl⟩
  | @secretChanged q password kept salt x hx hsalt hkept =>
    by_cases hr : r = q
    · subst hr
      have hsame : { x with passwordHash := kept, epoch := x.epoch + 1 } = x' := by
        simpa [setRoot] using hx'
      subst hsame
      exact Or.inr (Or.inr ⟨password, x, rfl, ⟨salt, hsalt, hkept⟩, hx, rfl⟩)
    · simp only [setRoot, Function.update_of_ne hr] at hx'
      exact Or.inl ⟨by simp [Deed.secretFor?, hr], rfl, by simp [Deed.rotates, hr], x', hx', rfl,
        rfl⟩
  | rootRemoved =>
    simp only [withoutRoots] at hx'
    split at hx'
    · contradiction
    · exact Or.inl ⟨rfl, rfl, rfl, x', hx', rfl, rfl⟩
  | rootsRemoved => simp [withoutRoots] at hx'

/-- A root keeps the password that it was given last, under one of the schemes in use. -/
theorem Trace.keeps (h : Trace S ds g) (hx : g.roots r = some x) :
    ∃ w secrets, secretOf ds r = some w ∧ S secrets ∧ x.Keeps secrets w := by
  induction h generalizing x with
  | start => simp [empty] at hx
  | @next ds g g' secrets d _ hs hstep ih =>
    cases d with
    | none =>
      cases hstep with
      | idle =>
        rw [Option.toList_none, List.append_nil]
        exact ih hx
    | some d =>
      rw [Option.toList_some, secretOf_append]
      rcases hstep.root_cases hx with ⟨hnone, -, -, x₀, hx₀, hhash, -⟩ | ⟨w, rfl, hkeeps, -⟩ |
        ⟨w, -, rfl, hkeeps, -, -⟩
      · obtain ⟨w, secrets', hw, hs', hkeeps⟩ := ih hx₀
        rw [hnone, Option.none_or]
        refine ⟨w, secrets', hw, hs', ?_⟩
        rw [Root.Keeps, hhash]
        exact hkeeps
      · exact ⟨w, secrets, by simp [Deed.secretFor?], hs, hkeeps⟩
      · exact ⟨w, secrets, by simp [Deed.secretFor?], hs, hkeeps⟩

/-- The epoch of a root counts the changes of its password, while they can be counted. -/
theorem Trace.epoch (h : Trace S ds g) (hx : g.roots r = some x) (hcount : ds.length < 2 ^ 64) :
    x.epoch.toNat = rotationsOf ds r := by
  induction h generalizing x with
  | start => simp [empty] at hx
  | @next ds g g' secrets d _ hs hstep ih =>
    cases d with
    | none =>
      cases hstep with
      | idle =>
        rw [Option.toList_none, List.append_nil] at hcount ⊢
        exact ih hx hcount
    | some d =>
      rw [Option.toList_some] at hcount ⊢
      rw [List.length_append, List.length_singleton] at hcount
      rcases hstep.root_cases hx with ⟨-, hold, hsame, x₀, hx₀, -, hepoch⟩ | ⟨w, rfl, -, hepoch⟩ |
        ⟨w, x₀, rfl, -, hx₀, hepoch⟩
      · rw [rotationsOf_append hold, hsame, hepoch]
        exact ih hx₀ (by omega)
      · have hnew : (Deed.rootRegistered r w).registersRoot r = true := by
          simp [Deed.registersRoot]
        rw [rotationsOf_append_of_registers hnew, hepoch]
        rfl
      · -- the count is below the number of deeds, so the word does not wrap around
        have hrotates : (Deed.secretChanged r w).rotates r = true := by simp [Deed.rotates]
        have hbefore := ih hx₀ (by omega)
        have hle := rotationsOf_le ds r
        rw [rotationsOf_append rfl, if_pos hrotates, ← hbefore, hepoch, UInt64.toNat_add,
          UInt64.toNat_one, Nat.mod_eq_of_lt (by omega)]

/-- A root whose password was changed keeps the new one. -/
theorem Step.root_of_secretChanged {w : String}
    (h : g.Step secrets (some (.secretChanged r w)) g') :
    ∃ x, g'.roots r = some x ∧ x.Keeps secrets w := by
  cases h with
  | @secretChanged _ _ kept salt x hx hsalt hkept =>
    exact ⟨{ x with passwordHash := kept, epoch := x.epoch + 1 }, by simp [setRoot], salt, hsalt,
      hkept⟩

/-! ### Joining with the right password -/

/-- A client that is registered becomes a member, and nobody else's membership changes.  If it
    joins again it is answered alike, and the table stays as it is. -/
theorem StoredIn.join_accepted (h : g.StoredIn n t) (hx : g.roots r = some x)
    (hy : g.clients c = some y) {w : String}
    (hv : secrets.verify w x.passwordHash = .ok true) (hn : n + 1 < 2 ^ 64) :
    ∃ z u, Roots.join secrets r c w t = ⟨[u], .ok z⟩ ∧
      (∀ q d, RootLists u q d ↔ RootLists t q d ∨ (q = r ∧ d = c)) ∧
      (∀ d q, ClientLists u d q ↔ ClientLists t d q ∨ (q = r ∧ d = c)) ∧
      Roots.join secrets r c w u = ⟨[u], .ok z⟩ := by
  obtain ⟨u, hu, hstored⟩ := h.join_ok hx hv hy hn
  refine ⟨_, u, hu, ?_, ?_, ?_⟩
  · intro q d
    rw [hstored.rootLists_iff, h.rootLists_iff, lists_enrol hx]
  · intro d q
    rw [hstored.clientLists_iff, h.clientLists_iff, joined_enrol hy]
  · have hroot : (g.enrol r c).roots r = some { x with members := x.members.insert c } := by
      simp [enrol_eq hx hy, setClient, setRoot]
    have hclient : (g.enrol r c).clients c = some { y with roots := y.roots.insert r } := by
      simp [enrol_eq hx hy, setClient]
    exact hstored.join_again hroot hv hclient (by simp) (by simp)

end Roster

namespace Session.Traced

variable {S : PasswordScheme → Prop} {s : Session} {log : List Event} {n : Nat} {g : Roster}

/-- The record of a root that is registered keeps the password that it was given last. -/
theorem keeps (h : s.Traced S log n g) (hr : (g.roots r).isSome = true) :
    ∃ w p x, secretOf (deeds log) r = some w ∧ S p ∧
      s.records.fetch Codec.root (Key.root r).bytes = .ok (some x) ∧ x.Keeps p w := by
  obtain ⟨x, hx⟩ := Option.isSome_iff_exists.1 hr
  obtain ⟨w, p, hw, hp, hkeeps⟩ := h.trace.keeps hx
  exact ⟨w, p, x, hw, hp, by rw [h.stored.fetch_root, hx], hkeeps⟩

/-- A root opens with the password that it was given last. -/
theorem opensWith (h : s.Traced S log n g) {among : Set String}
    (hS : ∀ p p', S p → S p' → p.Checks among p') (hn : n + 1 < 2 ^ 64)
    (hr : (g.roots r).isSome = true) {w : String} (hw : secretOf (deeds log) r = some w)
    (hamong : w ∈ among) : s.OpensWith among r w := by
  obtain ⟨x, hx⟩ := Option.isSome_iff_exists.1 hr
  obtain ⟨v, secrets, hv, hs, hkeeps⟩ := h.trace.keeps hx
  obtain rfl : w = v := Option.some.inj (hw.symm.trans hv)
  have haccepts (w' : String) (hw' : w' ∈ among) :=
    hkeeps.verify (hS secrets _ hs h.secrets) hamong hw'
  have hright := (haccepts w hamong).trans (congrArg _ (beq_self_eq_true w))
  refine ⟨?_, ?_, ?_⟩
  · intro c w' hw' hne
    exact h.stored.join_wrong hx ((haccepts w' hw').trans (congrArg _ (beq_false_of_ne hne)))
  · intro c hc
    rw [h.stored.has_client, Option.isSome_eq_false_iff, Option.isNone_iff_eq_none] at hc
    exact h.stored.join_stranger hx hright hc
  · intro c hc
    rw [h.stored.has_client, Option.isSome_iff_exists] at hc
    obtain ⟨y, hy⟩ := hc
    exact h.stored.join_accepted hx hy hright hn

/-- A reset is a change of the password to the one that was answered. -/
theorem reset (h : s.Traced S log n g) (hn : n + 1 < 2 ^ 64) {random salt : Bytes} {w : String}
    (hsalt : salt.length = 16)
    (hanswer : (s.serve (.resetPassword r random salt)).1 = .ok (.secret w)) :
    ∃ log' g', (s.serve (.resetPassword r random salt)).2.Traced S log' (n + 1) g' ∧
      secretOf (deeds log') r = some w ∧
      g.Step s.engine.secrets (some (.secretChanged r w)) g' := by
  have hq : (Call.resetPassword r random salt).Storable := hsalt
  obtain ⟨g', h', hstep⟩ := h.serve hq nofun hn fun _ _ hcall => nomatch hcall
  have hdeed : (eventOf s (.resetPassword r random salt)).deed? = some (.secretChanged r w) := by
    simp [Event.deed?, eventOf, hanswer]
  rw [hdeed] at hstep
  refine ⟨_, g', h', ?_, hstep⟩
  rw [deeds_append, hdeed, Option.toList_some, secretOf_append]
  simp [Deed.secretFor?]

/-- A reset leaves a hash of the password that was answered. -/
theorem reset_keeps (h : s.Traced S log n g) (hn : n + 1 < 2 ^ 64) {random salt : Bytes}
    {w : String} (hsalt : salt.length = 16)
    (hanswer : (s.serve (.resetPassword r random salt)).1 = .ok (.secret w)) :
    ∃ x, (s.serve (.resetPassword r random salt)).2.records.fetch Codec.root (Key.root r).bytes
      = .ok (some x) ∧ x.Keeps s.engine.secrets w := by
  obtain ⟨log', g', h', -, hstep⟩ := h.reset hn hsalt hanswer
  obtain ⟨x, hx, hkeeps⟩ := hstep.root_of_secretChanged
  exact ⟨x, by rw [h'.stored.fetch_root, hx], hkeeps⟩

/-- After a reset the root opens with the password that was answered. -/
theorem reset_opensWith (h : s.Traced S log n g) {among : Set String}
    (hS : ∀ p p', S p → S p' → p.Checks among p') (hn : n + 2 < 2 ^ 64) {random salt : Bytes}
    {w : String} (hsalt : salt.length = 16) (hamong : w ∈ among)
    (hanswer : (s.serve (.resetPassword r random salt)).1 = .ok (.secret w)) :
    (s.serve (.resetPassword r random salt)).2.OpensWith among r w := by
  obtain ⟨log', g', h', hw, hstep⟩ := h.reset (by omega) hsalt hanswer
  obtain ⟨x, hx, -⟩ := hstep.root_of_secretChanged
  exact h'.opensWith hS hn (by rw [hx, Option.isSome_some]) hw hamong

end Session.Traced

/-! ### New passwords that are refused -/

theorem Engine.setPassword_empty (e : Engine) (r : String) (salt : Bytes) (t : Records) :
    e.setPassword r "" salt t = ⟨[], .error (.password .empty)⟩ :=
  Roster.StoredIn.setPassword_refused (e.secrets.hash_empty salt) r t

/-- No empty password is restored, and none of no characters made up. -/
theorem Engine.resetPassword_empty {e : Engine}
    (h : e.config.security.defaultPassword = some "" ∨
      e.config.security.defaultPassword = none ∧ e.config.security.generatedPasswordLength = 0)
    (r : String) (random salt : Bytes) (t : Records) :
    e.resetPassword r random salt t = ⟨[], .error (.password .empty)⟩ := by
  have hsecret : e.config.security.defaultPassword.getD
      (Secret.generate e.config.security.generatedPasswordLength.toNat random) = "" := by
    rcases h with hdefault | ⟨hdefault, hlength⟩
    · rw [hdefault]
      rfl
    · rw [hdefault, hlength]
      exact Secret.generate_zero random
  have hrefused := e.setPassword_empty r salt t
  unfold Engine.resetPassword Roots.resetPassword
  rw [hsecret]
  exact Op.run_bind_error hrefused

/-- Argon2id checks any passwords that have different digests, at whatever costs and with whatever
    salt. -/
theorem Session.checks_of_standard {e : Engine} {cs : List Call} (hschemes : e.schemes = .standard)
    (hsecrets : ∃ c : SecurityConfig, c.scheme = .ok e.secrets) {among : Set String}
    (hdigests : ∀ (c : SecurityConfig) (salt : Bytes), salt.length = 16 →
      among.InjOn (Argon2.derive { costs := c.costs, salt })) :
    ∀ p p', Session.Uses e cs p → Session.Uses e cs p' → p.Checks among p' := by
  have hchosen (p : PasswordScheme) (hp : Session.Uses e cs p) :
      ∃ c : SecurityConfig, c.scheme = .ok p := by
    rcases hp with rfl | ⟨c, -, hc⟩
    · exact hsecrets
    · rw [hschemes] at hc
      exact ⟨c.security, hc⟩
  intro p p' hp hp'
  obtain ⟨c, hc⟩ := hchosen p hp
  obtain ⟨c', hc'⟩ := hchosen p' hp'
  exact SecurityConfig.checks_scheme hc hc' (hdigests c)

/-- **Only the current password opens a root.**  After any run a registered root keeps a hash, by
    one of the schemes of the run, of the password that it was given last, and the epoch counts the
    changes of the password since the registration.  A join that fails commits nothing.  An empty
    password, also one that is configured, and one of no characters are refused with nothing
    committed.  A reset leaves a hash of the password that was answered.

    Among passwords that no scheme of the run confuses, a root opens with the one that it was given
    last and with no other, and after a reset with the one that was answered. -/
theorem current_password_opens {e : Engine} {cs : List Call} (h : Session.Feasible e cs) :
    let s := (Session.fresh e).run cs
    let ds := deeds ((Session.fresh e).events cs)
    (∀ r, s.records.has (.root r) = true → ∃ w p x, secretOf ds r = some w ∧
      Session.Uses e cs p ∧
      s.records.fetch Codec.root (Key.root r).bytes = .ok (some x) ∧ x.Keeps p w) ∧
    (∀ r x, s.records.fetch Codec.root (Key.root r).bytes = .ok (some x) →
      x.epoch.toNat = rotationsOf ds r) ∧
    (∀ r c w err, (s.engine.joinRoot r c w s.records).answer = .error err →
      (s.engine.joinRoot r c w s.records).commits = []) ∧
    (∀ r salt, s.engine.setPassword r "" salt s.records = ⟨[], .error (.password .empty)⟩) ∧
    (s.engine.config.security.defaultPassword = some "" ∨
        s.engine.config.security.defaultPassword = none ∧
          s.engine.config.security.generatedPasswordLength = 0 →
      ∀ r random salt, s.engine.resetPassword r random salt s.records
        = ⟨[], .error (.password .empty)⟩) ∧
    (∀ r random salt w, salt.length = 16 →
      (s.serve (.resetPassword r random salt)).1 = .ok (.secret w) →
        ∃ x, (s.serve (.resetPassword r random salt)).2.records.fetch Codec.root (Key.root r).bytes
          = .ok (some x) ∧ x.Keeps s.engine.secrets w) ∧
    ∀ among : Set String,
      (∀ p p', Session.Uses e cs p → Session.Uses e cs p' → p.Checks among p') →
        (∀ r w, s.records.has (.root r) = true → secretOf ds r = some w → w ∈ among →
          s.OpensWith among r w) ∧
        ∀ r random salt w, salt.length = 16 → w ∈ among →
          (s.serve (.resetPassword r random salt)).1 = .ok (.secret w) →
            (s.serve (.resetPassword r random salt)).2.OpensWith among r w := by
  intro s ds
  obtain ⟨g, hg⟩ := Session.traced_run h
  have hcount : cs.length + 2 < 2 ^ 64 := by
    have := h.count
    omega
  refine ⟨?_, ?_, ?_, ?_, ?_, ?_, ?_⟩
  · intro r hr
    rw [hg.stored.has_root] at hr
    exact hg.keeps hr
  · intro r x hx
    rw [hg.stored.fetch_root, Except.ok.injEq] at hx
    have hevents : ((Session.fresh e).events cs).length = cs.length := Session.length_events _ cs
    have hle := length_deeds_le ((Session.fresh e).events cs)
    exact hg.trace.epoch hx (by omega)
  · intro r c w err herr
    exact Roots.atomic_join _ r c w _ err herr
  · intro r salt
    exact s.engine.setPassword_empty r salt _
  · intro hempty r random salt
    exact Engine.resetPassword_empty hempty r random salt _
  · intro r random salt w hsalt hanswer
    exact hg.reset_keeps (by omega) hsalt hanswer
  · intro among hchecks
    refine ⟨?_, ?_⟩
    · intro r w hr hw hamong
      rw [hg.stored.has_root] at hr
      exact hg.opensWith hchecks (by omega) hr hw hamong
    · intro r random salt w hsalt hamong hanswer
      exact hg.reset_opensWith hchecks hcount hsalt hamong hanswer

/-! ### A run -/

namespace Session

/-- A root is removed and registered again, and its password changed; then the engine is restarted
    at other costs, and the root is reset. -/
def rotatedTwice : List Call :=
  [.registerClient ⟨1⟩ "a" ⟨0, 0⟩, .registerRoot "r" "o" "s" salt ⟨0, 0⟩,
    .setPassword "r" "t" salt, .removeRoot "r", .registerRoot "r" "o" "p" salt ⟨0, 0⟩,
    .setPassword "r" "q" salt, .setPassword "r" "" salt,
    .restart { dataDir := "", security := { argon2Iterations := 3 } },
    .resetPassword "r" salt salt]

theorem rotatedTwice_feasible : Feasible plain rotatedTwice where
  engine := storable_plain
  calls := by
    simp only [rotatedTwice, List.forall_mem_cons]
    exact ⟨storable_registerClient (by decide), storable_registerRoot (by decide) (by decide),
      ⟨by decide, rfl⟩, trivial, storable_registerRoot (by decide) (by decide),
      ⟨by decide, rfl⟩, ⟨by decide, rfl⟩, nofun, rfl, nofun⟩
  fresh := by decide
  count := by decide

theorem checks_plain (among : Set String) : plainSecrets.Checks among plainSecrets := by
  intro salt password kept _ _ hkept w _
  unfold PasswordScheme.hash at hkept
  split at hkept
  · contradiction
  · obtain rfl := Except.ok.inj hkept
    rfl

end Session

/-- The restart succeeds, and after all this only the password that was made up opens the root,
    whose epoch is 2. -/
theorem password_after_reset :
    let s := (Session.fresh Session.plain).run Session.rotatedTwice
    let ds := deeds ((Session.fresh Session.plain).events Session.rotatedTwice)
    Session.Feasible Session.plain Session.rotatedTwice ∧
      (∀ p p', Session.Uses Session.plain Session.rotatedTwice p →
        Session.Uses Session.plain Session.rotatedTwice p' → p.Checks Set.univ p') ∧
      s.engine.config.security.argon2Iterations = 3 ∧
      secretOf ds "r" = some "AAAAAAAAAAAAAAAA" ∧ rotationsOf ds "r" = 2 ∧
      (s.engine.joinRoot "r" ⟨1⟩ "q" s.records
        = ⟨[], .error (.unauthorized (.wrongPassword "r"))⟩) ∧
      ∃ x t, s.engine.joinRoot "r" ⟨1⟩ "AAAAAAAAAAAAAAAA" s.records = ⟨[t], .ok x⟩ := by
  intro s ds
  have huses (p : PasswordScheme) (hp : Session.Uses Session.plain Session.rotatedTwice p) :
      p = Session.plainSecrets := by
    rcases hp with hp | ⟨c, -, hp⟩
    · exact hp
    · exact (Except.ok.inj hp).symm
  have hchecks : ∀ p p', Session.Uses Session.plain Session.rotatedTwice p →
      Session.Uses Session.plain Session.rotatedTwice p' → p.Checks Set.univ p' := by
    intro p p' hp hp'
    rw [huses p hp, huses p' hp']
    exact Session.checks_plain Set.univ
  -- the empty password was refused, and the restart is no deed
  have hdeeds : ds = [.clientRegistered ⟨1⟩, .rootRegistered "r" "s", .secretChanged "r" "t",
      .rootRemoved "r", .rootRegistered "r" "p", .secretChanged "r" "q",
      .secretChanged "r" "AAAAAAAAAAAAAAAA"] := by decide +kernel
  have hrestarted : s.engine.config.security.argon2Iterations = 3 := by decide +kernel
  have hr : s.records.has (.root "r") = true := by decide +kernel
  have hone : s.records.has (.client ⟨1⟩) = true := by decide +kernel
  have hsecret : secretOf ds "r" = some "AAAAAAAAAAAAAAAA" := by
    rw [hdeeds]
    rfl
  obtain ⟨-, -, -, -, -, -, hchecked⟩ := current_password_opens Session.rotatedTwice_feasible
  obtain ⟨hopens, -⟩ := hchecked Set.univ hchecks
  have hopen := hopens "r" _ hr hsecret (Set.mem_univ _)
  obtain ⟨x, t, hx, -⟩ := hopen.member ⟨1⟩ hone
  have hrotations : rotationsOf ds "r" = 2 := by
    rw [hdeeds]
    rfl
  exact ⟨Session.rotatedTwice_feasible, hchecks, hrestarted, hsecret, hrotations,
    hopen.wrong ⟨1⟩ "q" (Set.mem_univ _) (by decide), x, t, hx⟩

end SyncLedger
