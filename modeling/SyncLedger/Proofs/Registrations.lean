/-
  SyncLedger/Proofs/Registrations.lean
  ====================================
  **What the registry does to a roster.**  Where a table stores a roster an operation on clients or
  roots either fails, for a reason that the roster tells, and writes nothing, or it leaves a table
  that stores the roster so changed.

  The removal of a client commits once for its record and once for each root that it joined;
  `remove_client` says what every one of these tables stores.  The cascades over all clients and
  all roots cannot fail, since all records can be read.
-/
import SyncLedger.Proofs.Enrolments

namespace SyncLedger

namespace Roster.StoredIn

variable {g : Roster} {n : Nat} {t : Records} {id : Uuid} {r : String} {x : Root} {y : Client}

/-! ### Clients -/

theorem require_client (h : g.StoredIn n t) (hy : g.clients id = some y) (m : Missing) :
    Txn.require Codec.client (.client id) m t = .ok (y, t) :=
  Txn.require_eq_ok_iff.2 ⟨hy ▸ h.fetch_client id, rfl⟩

theorem require_root (h : g.StoredIn n t) (hx : g.roots r = some x) (m : Missing) :
    Txn.require Codec.root (.root r) m t = .ok (x, t) :=
  Txn.require_eq_ok_iff.2 ⟨hx ▸ h.fetch_root r, rfl⟩

theorem register_client (h : g.StoredIn n t) (id : Uuid) (ordinal : UInt64) {address : String}
    (haddress : Held address) {now : Instant} (hnow : now.Representable) :
    ∃ y u, Clients.register id ordinal address now t = ⟨[u], .ok y⟩ ∧ y.roots = .empty ∧
      (g.setClient id (some y)).StoredIn n u := by
  let y : Client := { uuid := id, ordinal, address, roots := .empty, registeredAt := now }
  have hy : y.Storable n := by
    refine ⟨haddress, ?_, Nat.zero_le n, hnow⟩
    intro r hr
    exact absurd hr (OrderedSet.not_mem_empty r)
  exact ⟨y, _, rfl, rfl, h.putClient rfl hy⟩

/-- A root drops a client, if it is there and has it. -/
theorem leave (h : g.StoredIn n t) (id : Uuid) (r : String) :
    ∃ u, Clients.leave id r t = .ok ((), u) ∧ (g.drop id r).StoredIn n u := by
  have hfetch : Txn.fetch Codec.root (.root r) t = .ok (g.roots r, t) :=
    Txn.fetch_eq_ok_iff.2 ⟨h.fetch_root r, rfl⟩
  unfold Clients.leave
  rw [Txn.bind_of_ok hfetch]
  cases hx : g.roots r with
  | none =>
    refine ⟨t, rfl, ?_⟩
    rw [Roster.drop, hx, Option.map_none, setRoot, ← hx, Function.update_eq_self]
    exact h
  | some x =>
    obtain ⟨hpath, hstorable⟩ := h.root r x hx
    have hless : Root.Storable n { x with members := x.members.erase id } :=
      { hstorable with size := (OrderedSet.length_without_le _ _).trans hstorable.size }
    simp only
    split
    · refine ⟨_, rfl, ?_⟩
      rw [Roster.drop, hx]
      exact h.putRoot hpath hless
    · rename_i hmember
      rw [OrderedSet.contains_iff] at hmember
      refine ⟨t, rfl, ?_⟩
      rw [Roster.drop, hx, Option.map_some, OrderedSet.erase_of_not_mem hmember, setRoot_self hx]
      exact h

/-- One commit for each root; the table after `k` of them stores the roster after `k` drops. -/
theorem leaveEach (h : g.StoredIn n t) (id : Uuid) (rs : List String) :
    ∃ us, Clients.leaveEach id rs t = ⟨us, .ok ()⟩ ∧ us.length = rs.length ∧
      ∀ k u, (t :: us)[k]? = some u → (g.dropEach id (rs.take k)).StoredIn n u := by
  induction rs generalizing g t with
  | nil =>
    refine ⟨[], rfl, rfl, ?_⟩
    intro k u hu
    cases k with
    | zero =>
      obtain rfl : t = u := by simpa using hu
      exact h
    | succ k => simp at hu
  | cons r rs ih =>
    obtain ⟨v, hv, hdrop⟩ := h.leave id r
    obtain ⟨us, hus, hlength, hstored⟩ := ih hdrop
    have hcommit : Op.attempt (Op.commit (Clients.leave id r)) t = ⟨[v], .ok (.ok ())⟩ := by
      rw [Op.attempt, Op.commit_of_ok hv]
    refine ⟨v :: us, ?_, by simp [hlength], ?_⟩
    · exact Op.run_bind hcommit hus
    · intro k u hu
      cases k with
      | zero =>
        obtain rfl : t = u := by simpa using hu
        exact h
      | succ k => exact hstored k u hu

theorem remove_missing_client (h : g.StoredIn n t) (hy : g.clients id = none) :
    Clients.remove id t = ⟨[], .error (.notFound (.client id))⟩ := by
  have hdetach : Clients.detach id t = .error (.notFound (.client id)) :=
    Txn.bind_of_error (Txn.require_of_none (hy ▸ h.fetch_client id))
  exact Op.run_bind_error (Op.commit_of_error hdetach)

/-- The record goes in the first commit.  After `k` more the first `k` of the roots in it have
    dropped the client. -/
theorem remove_client (h : g.StoredIn n t) (hy : g.clients id = some y) :
    ∃ us, Clients.remove id t = ⟨us, .ok y⟩ ∧ us.length = y.roots.toList.length + 1 ∧
      ∀ k u, us[k]? = some u →
        ((g.setClient id none).dropEach id (y.roots.toList.take k)).StoredIn n u := by
  have hdetach : Clients.detach id t = .ok (y, t.erase (Key.client id).bytes) :=
    Txn.bind_of_ok (h.require_client hy _)
  obtain ⟨us, hus, hlength, hstored⟩ := (h.eraseClient id).leaveEach id y.roots.toList
  refine ⟨_ :: us, ?_, by simp [hlength], hstored⟩
  apply Op.run_bind (Op.commit_of_ok hdetach)
  rw [← List.append_nil us]
  exact Op.run_bind hus rfl

/-- Taken as a whole the removal takes the client out of the roster. -/
theorem outcome_remove_client (h : g.StoredIn n t) (hm : g.Mutual) (hy : g.clients id = some y) :
    ∃ u, (Clients.remove id).outcome t = (.ok y, u) ∧
      (g.withoutClients (· == id)).StoredIn n u := by
  obtain ⟨us, hus, hlength, hstored⟩ := h.remove_client hy
  have hlast : us[y.roots.toList.length]? = some (us.getLast?.getD t) := by
    have hne : us ≠ [] := List.ne_nil_of_length_eq_add_one hlength
    rw [List.getLast?_eq_some_getLast hne, Option.getD_some, List.getLast_eq_getElem]
    rw [List.getElem?_eq_getElem (by omega)]
    simp [hlength]
  refine ⟨us.getLast?.getD t, Op.outcome_of_run hus, ?_⟩
  have hall := hstored _ _ hlast
  rwa [List.take_length, hm.dropEach_eq hy] at hall

theorem removeEach_clients (h : g.StoredIn n t) (hm : g.Mutual) (ys : List Client) (k : Nat) :
    ∃ m u, (Clients.removeEach ys k).outcome t = (.ok m, u) ∧
      (g.withoutClients fun id => ys.any (·.uuid == id)).StoredIn n u := by
  induction ys generalizing g t k with
  | nil =>
    refine ⟨k, t, rfl, ?_⟩
    simp only [List.any_nil]
    rw [withoutClients_false]
    exact h
  | cons y ys ih =>
    cases hy : g.clients y.uuid with
    | none =>
      obtain ⟨m, u, hu, hstored⟩ := ih h hm k
      have hmissing := Op.outcome_of_run (h.remove_missing_client hy)
      refine ⟨m, u, (Op.outcome_bind_ok (Op.outcome_attempt_of hmissing)).trans hu, ?_⟩
      have hsame : ∀ id z, g.clients id = some z →
          (y :: ys).any (·.uuid == id) = ys.any (·.uuid == id) := by
        intro id z hz
        have hne : y.uuid ≠ id := by
          rintro rfl
          rw [hy] at hz
          contradiction
        simp [hne]
      rw [hm.withoutClients_congr hsame]
      exact hstored
    | some z =>
      obtain ⟨v, hv, hless⟩ := h.outcome_remove_client hm hy
      obtain ⟨m, u, hu, hstored⟩ := ih hless (hm.withoutClients _) (k + 1)
      refine ⟨m, u, (Op.outcome_bind_ok (Op.outcome_attempt_of hv)).trans hu, ?_⟩
      rw [withoutClients_withoutClients] at hstored
      have hsame : ∀ id w, g.clients id = some w →
          (y :: ys).any (·.uuid == id) = (id == y.uuid || ys.any (·.uuid == id)) := by
        intro id _ _
        rw [List.any_cons, Bool.beq_comm]
      rw [hm.withoutClients_congr hsame]
      exact hstored

/-- The cascade over all clients succeeds and leaves none. -/
theorem removeAll_clients (h : g.StoredIn n t) (hm : g.Mutual) :
    ∃ k u, Clients.removeAll.outcome t = (.ok k, u) ∧
      (g.withoutClients fun _ => true).StoredIn n u := by
  obtain ⟨ys, hys, hmem⟩ := h.list_clients
  obtain ⟨k, u, hu, hstored⟩ := h.removeEach_clients hm ys 0
  refine ⟨k, u, (Op.outcome_bind_ok (Op.outcome_of_run hys)).trans hu, ?_⟩
  have hall : ∀ id y, g.clients id = some y → true = ys.any (·.uuid == id) := by
    intro id y hy
    obtain rfl : y.uuid = id := (h.client id y hy).1
    rw [eq_comm, List.any_eq_true]
    exact ⟨y, (hmem y).2 hy, beq_self_eq_true y.uuid⟩
  rw [hm.withoutClients_congr hall]
  exact hstored

/-! ### Registering and joining a root -/

/-- A root is registered, with no members, or refused. -/
theorem register_root (h : g.StoredIn n t) {secrets : PasswordScheme} {path owner password : String}
    {salt : Bytes} {now : Instant} (hpath : Held path) (howner : Held owner)
    (hkept : ∀ kept, secrets.hash salt password = .ok kept → Held kept)
    (hnow : now.Representable) :
    (∃ e, Roots.register secrets path owner password salt now t = ⟨[], .error e⟩) ∨
      ∃ x u, Roots.register secrets path owner password salt now t = ⟨[u], .ok x⟩ ∧
        g.roots path = none ∧ x.members = .empty ∧ x.epoch = 0 ∧
        secrets.hash salt password = .ok x.passwordHash ∧
        (g.setRoot path (some x)).StoredIn n u := by
  unfold Roots.register
  split
  · exact Or.inl ⟨_, rfl⟩
  · cases hhash : secrets.hash salt password with
    | error e => exact Or.inl ⟨e, rfl⟩
    | ok kept =>
      have htaken : Txn.has (.root path) t = .ok ((g.roots path).isSome, t) :=
        Txn.has_eq_ok_iff.2 ⟨h.has_root path, rfl⟩
      cases hx : g.roots path with
      | some x =>
        rw [hx] at htaken
        exact Or.inl ⟨_, Op.commit_of_error (Txn.bind_of_ok htaken)⟩
      | none =>
        rw [hx] at htaken
        cases hmarked : t.has (.marker path none) with
        | true =>
          have hmark : Txn.has (.marker path none) t = .ok (true, t) :=
            Txn.has_eq_ok_iff.2 ⟨hmarked, rfl⟩
          exact Or.inl ⟨_, Op.commit_of_error
            ((Txn.bind_of_ok htaken).trans (Txn.bind_of_ok hmark))⟩
        | false =>
          have hmark : Txn.has (.marker path none) t = .ok (false, t) :=
            Txn.has_eq_ok_iff.2 ⟨hmarked, rfl⟩
          let x : Root :=
            { path, owner, passwordHash := kept, epoch := 0, members := .empty, createdAt := now }
          have hstorable : x.Storable n := ⟨hpath, howner, hkept kept hhash, Nat.zero_le n, hnow⟩
          exact Or.inr ⟨x, _, Op.commit_of_ok
            ((Txn.bind_of_ok htaken).trans (Txn.bind_of_ok hmark)), rfl, rfl, rfl, rfl,
            h.putRoot rfl hstorable⟩

section Join

variable {secrets : PasswordScheme} {password : String}

theorem get_root (h : g.StoredIn n t) (hx : g.roots r = some x) :
    Roots.get r t = ⟨[], .ok x⟩ := by
  rw [Roots.get, Op.read_apply, h.fetch_root, hx]
  rfl

theorem get_missing_root (h : g.StoredIn n t) (hx : g.roots r = none) :
    Roots.get r t = ⟨[], .error (.notFound (.root r))⟩ := by
  rw [Roots.get, Op.read_apply, h.fetch_root, hx]
  rfl

theorem join_missing_root (h : g.StoredIn n t) (hx : g.roots r = none) :
    Roots.join secrets r id password t = ⟨[], .error (.notFound (.root r))⟩ :=
  Op.run_bind_error (h.get_missing_root hx)

/-- A password that cannot be checked, or is wrong, is refused whoever brings it. -/
theorem join_unchecked (h : g.StoredIn n t) (hx : g.roots r = some x) {e : Error}
    (hv : secrets.verify password x.passwordHash = .error e) :
    Roots.join secrets r id password t = ⟨[], .error e⟩ := by
  apply Op.run_bind (h.get_root hx)
  rw [hv]
  rfl

theorem join_wrong (h : g.StoredIn n t) (hx : g.roots r = some x)
    (hv : secrets.verify password x.passwordHash = .ok false) :
    Roots.join secrets r id password t = ⟨[], .error (.unauthorized (.wrongPassword r))⟩ := by
  apply Op.run_bind (h.get_root hx)
  rw [hv]
  rfl

theorem enroll_stranger (h : g.StoredIn n t) (hx : g.roots r = some x) (hy : g.clients id = none) :
    Roots.enroll r id x.passwordHash t = .error (.notFound (.client id)) := by
  unfold Roots.enroll
  rw [Txn.bind_of_ok (h.require_root hx _), if_neg (not_not_intro rfl)]
  exact Txn.bind_of_error (Txn.require_of_none (hy ▸ h.fetch_client id))

/-- What is written anyway, and what is not written because it is there. -/
theorem ite_put_bind {α β : Type} {c : Codec α} {k : Key} {v : α} {b : Bool} {m : Txn β} :
    (if b = true then (do Txn.put c k v; m) else m : Txn β) t
      = m (if b = true then t.insert k.bytes (c.encode v) else t) := by
  cases b with
  | false => rfl
  | true => rfl

/-- Each of the two records is written unless the other name is in it. -/
theorem enroll_eq (h : g.StoredIn n t) (hx : g.roots r = some x) (hy : g.clients id = some y) :
    Roots.enroll r id x.passwordHash t = .ok ({ x with members := x.members.insert id },
      let v := if (!x.hasMember id) = true then t.insert (Key.root r).bytes
        (Codec.root.encode { x with members := x.members.insert id }) else t
      if (!y.roots.contains r) = true then v.insert (Key.client id).bytes
        (Codec.client.encode { y with roots := y.roots.insert r }) else v) := by
  unfold Roots.enroll
  rw [Txn.bind_of_ok (h.require_root hx _), if_neg (not_not_intro rfl)]
  refine (Txn.bind_of_ok (h.require_client hy _)).trans ?_
  exact ite_put_bind.trans (ite_put_bind.trans rfl)

theorem enroll_ok (h : g.StoredIn n t) (hx : g.roots r = some x) (hy : g.clients id = some y)
    (hn : n + 1 < 2 ^ 64) :
    ∃ u, Roots.enroll r id x.passwordHash t = .ok ({ x with members := x.members.insert id }, u) ∧
      (g.enrol r id).StoredIn (n + 1) u := by
  obtain ⟨hpath, hroot⟩ := h.root r x hx
  obtain ⟨huuid, hclient⟩ := h.client id y hy
  have hjoined : Root.Storable (n + 1) { x with members := x.members.insert id } :=
    { hroot with
      size := (OrderedSet.length_insert_le _ _).trans (Nat.succ_le_succ hroot.size) }
  have hwidened : Client.Storable (n + 1) { y with roots := y.roots.insert r } :=
    { hclient with
      roots := by
        intro q hq
        rcases OrderedSet.mem_insert.1 hq with rfl | hq
        · exact hpath ▸ hroot.path
        · exact hclient.roots q hq
      size := (OrderedSet.length_insert_le _ _).trans (Nat.succ_le_succ hclient.size) }
  have hmember : (!x.hasMember id) = false →
      g.roots r = some { x with members := x.members.insert id } := by
    intro hin
    rw [Root.hasMember, Bool.not_eq_false', OrderedSet.contains_iff] at hin
    rw [hx, OrderedSet.insert_of_mem hin]
  have hinside : (!y.roots.contains r) = false →
      g.clients id = some { y with roots := y.roots.insert r } := by
    intro hin
    rw [Bool.not_eq_false', OrderedSet.contains_iff] at hin
    rw [hy, OrderedSet.insert_of_mem hin]
  have hfirst := (h.mono (Nat.le_succ n) hn).putRoot_unless
    (x := { x with members := x.members.insert id }) hpath hjoined hmember
  have hsecond := hfirst.putClient_unless (y := { y with roots := y.roots.insert r }) huuid
    hwidened hinside
  rw [← enrol_eq hx hy] at hsecond
  exact ⟨_, h.enroll_eq hx hy, hsecond⟩

theorem join_stranger (h : g.StoredIn n t) (hx : g.roots r = some x)
    (hv : secrets.verify password x.passwordHash = .ok true) (hy : g.clients id = none) :
    Roots.join secrets r id password t = ⟨[], .error (.notFound (.client id))⟩ := by
  apply Op.run_bind (h.get_root hx)
  rw [hv]
  exact Op.commit_of_error (h.enroll_stranger hx hy)

theorem join_ok (h : g.StoredIn n t) (hx : g.roots r = some x)
    (hv : secrets.verify password x.passwordHash = .ok true) (hy : g.clients id = some y)
    (hn : n + 1 < 2 ^ 64) :
    ∃ u, Roots.join secrets r id password t
        = ⟨[u], .ok { x with members := x.members.insert id }⟩ ∧
      (g.enrol r id).StoredIn (n + 1) u := by
  obtain ⟨u, hu, hstored⟩ := h.enroll_ok hx hy hn
  refine ⟨u, ?_, hstored⟩
  apply Op.run_bind (h.get_root hx)
  rw [hv]
  exact Op.commit_of_ok hu

/-- A join is refused, or makes a client that is registered a member of a root that is. -/
theorem join_cases (h : g.StoredIn n t) (hn : n + 1 < 2 ^ 64) (secrets : PasswordScheme)
    (r : String) (id : Uuid) (password : String) :
    (∃ e, Roots.join secrets r id password t = ⟨[], .error e⟩) ∨
      ∃ x y z u, g.roots r = some x ∧ g.clients id = some y ∧
        Roots.join secrets r id password t = ⟨[u], .ok z⟩ ∧ (g.enrol r id).StoredIn (n + 1) u := by
  cases hx : g.roots r with
  | none => exact Or.inl ⟨_, h.join_missing_root hx⟩
  | some x =>
    cases hv : secrets.verify password x.passwordHash with
    | error e => exact Or.inl ⟨e, h.join_unchecked hx hv⟩
    | ok right =>
      cases right with
      | false => exact Or.inl ⟨_, h.join_wrong hx hv⟩
      | true =>
        cases hy : g.clients id with
        | none => exact Or.inl ⟨_, h.join_stranger hx hv hy⟩
        | some y =>
          obtain ⟨u, hu, hstored⟩ := h.join_ok hx hv hy hn
          exact Or.inr ⟨x, y, _, u, rfl, rfl, hu, hstored⟩

/-- A member that joins again is answered alike, and the same table is committed again. -/
theorem join_again (h : g.StoredIn n t) (hx : g.roots r = some x)
    (hv : secrets.verify password x.passwordHash = .ok true) (hy : g.clients id = some y)
    (hmember : id ∈ x.members) (hinside : r ∈ y.roots) :
    Roots.join secrets r id password t = ⟨[t], .ok x⟩ := by
  apply Op.run_bind (h.get_root hx)
  rw [hv]
  apply Op.commit_of_ok
  have hold : (!x.hasMember id) = false := by simpa [Root.hasMember] using hmember
  have hold' : (!y.roots.contains r) = false := by simpa using hinside
  have henroll := h.enroll_eq hx hy
  rw [hold, hold', OrderedSet.insert_of_mem hmember] at henroll
  exact henroll

end Join

/-! ### New passwords -/

section Rotation

variable {secrets : PasswordScheme} {password kept : String} {salt : Bytes}

theorem setPassword_refused {e : Error} (he : secrets.hash salt password = .error e) (r : String)
    (t : Records) : Roots.setPassword secrets r password salt t = ⟨[], .error e⟩ := by
  rw [Roots.setPassword, he]
  rfl

theorem setPassword_missing_root (h : g.StoredIn n t) (hx : g.roots r = none)
    (hk : secrets.hash salt password = .ok kept) :
    Roots.setPassword secrets r password salt t = ⟨[], .error (.notFound (.root r))⟩ := by
  rw [Roots.setPassword, hk]
  exact Op.commit_of_error (Txn.bind_of_error (Txn.require_of_none (hx ▸ h.fetch_root r)))

theorem setPassword_ok (h : g.StoredIn n t) (hx : g.roots r = some x)
    (hk : secrets.hash salt password = .ok kept) (hkept : Held kept) :
    ∃ u, Roots.setPassword secrets r password salt t = ⟨[u], .ok (x.epoch + 1)⟩ ∧
      (g.setRoot r (some { x with passwordHash := kept, epoch := x.epoch + 1 })).StoredIn n u := by
  obtain ⟨hpath, hroot⟩ := h.root r x hx
  have hrotated : Root.Storable n { x with passwordHash := kept, epoch := x.epoch + 1 } :=
    { hroot with passwordHash := hkept }
  refine ⟨_, ?_, h.putRoot hpath hrotated⟩
  rw [Roots.setPassword, hk]
  exact Op.commit_of_ok (Txn.bind_of_ok (h.require_root hx _))

end Rotation

/-! ### Removing roots -/

theorem forgetBy (h : g.StoredIn n t) (r : String) (ids : List Uuid) :
    ∃ u, Roots.forgetBy r ids t = .ok ((), u) ∧ (g.forgetEach r ids).StoredIn n u := by
  induction ids generalizing g t with
  | nil => exact ⟨t, rfl, h⟩
  | cons id ids ih =>
    have hfetch : Txn.fetch Codec.client (.client id) t = .ok (g.clients id, t) :=
      Txn.fetch_eq_ok_iff.2 ⟨h.fetch_client id, rfl⟩
    unfold Roots.forgetBy
    rw [Txn.bind_of_ok hfetch]
    cases hy : g.clients id with
    | none =>
      have hsame : g.forget r id = g := by
        rw [forget, hy, Option.map_none, setClient, ← hy, Function.update_eq_self]
      rw [forgetEach, hsame]
      exact ih h
    | some y =>
      obtain ⟨huuid, hstorable⟩ := h.client id y hy
      have hless : Client.Storable n { y with roots := y.roots.erase r } :=
        { hstorable with
          roots := fun q hq => hstorable.roots q (OrderedSet.mem_erase.1 hq).1
          size := (OrderedSet.length_without_le _ _).trans hstorable.size }
      have hinside : y.roots.contains r = false →
          g.clients id = some { y with roots := y.roots.erase r } := by
        intro hout
        rw [OrderedSet.contains_eq_false_iff] at hout
        rw [hy, OrderedSet.erase_of_not_mem hout]
      have hstep := h.putClient_unless (y := { y with roots := y.roots.erase r }) huuid hless
        hinside
      obtain ⟨u, hu, hstored⟩ := ih hstep
      refine ⟨u, ite_put_bind.trans hu, ?_⟩
      rw [forgetEach, forget, hy]
      exact hstored

theorem remove_missing_root (h : g.StoredIn n t) (hx : g.roots r = none) (batch : Nat) :
    (Roots.remove r batch).outcome t = (.error (.notFound (.root r)), t) :=
  Op.outcome_bind_error (Op.outcome_commit_error
    (Txn.bind_of_error (Txn.require_of_none (hx ▸ h.fetch_root r))))

theorem remove_root (h : g.StoredIn n t) (hm : g.Mutual) (hx : g.roots r = some x) (batch : Nat) :
    ∃ k u, (Roots.remove r batch).outcome t = (.ok k, u) ∧
      (g.withoutRoots (· == r)).StoredIn n u := by
  obtain ⟨v, hv, hforgot⟩ := h.forgetBy r x.members.toList
  have hdetach : Roots.detach r t = .ok ((), Roots.detached r v) := by
    unfold Roots.detach
    rw [Txn.bind_of_ok (h.require_root hx _), Txn.bind_of_ok hv]
    exact Txn.bind_of_ok (Txn.delete_eq_ok_iff.2 ⟨rfl, rfl⟩)
  have hdetached : (g.withoutRoots (· == r)).StoredIn n (Roots.detached r v) := by
    rw [← hm.forgetEach_eq hx]
    apply (hforgot.eraseRoot r).sameRegistry
    exact (SameRegistry.refl _).insert (Key.outside_marker r none) _
  refine ⟨_, _, (Op.outcome_bind_ok (Op.outcome_commit_ok hdetach)).trans
    (Roots.outcome_purge r batch _), ?_⟩
  have hkeeps := (SameRegistry.keeps_purgeRoot r batch).outcome (SameRegistry.refl (Roots.detached r v))
  rw [Roots.outcome_purge] at hkeeps
  exact hdetached.sameRegistry hkeeps

theorem removeEach_roots (h : g.StoredIn n t) (hm : g.Mutual) (batch : Nat) (xs : List Root)
    (k : Nat) :
    ∃ m u, (Roots.removeEach batch xs k).outcome t = (.ok m, u) ∧
      (g.withoutRoots fun r => xs.any (·.path == r)).StoredIn n u := by
  induction xs generalizing g t k with
  | nil =>
    refine ⟨k, t, rfl, ?_⟩
    simp only [List.any_nil]
    rw [withoutRoots_false]
    exact h
  | cons x xs ih =>
    cases hx : g.roots x.path with
    | none =>
      obtain ⟨m, u, hu, hstored⟩ := ih h hm k
      have hmissing := h.remove_missing_root hx batch
      refine ⟨m, u, (Op.outcome_bind_ok (Op.outcome_attempt_of hmissing)).trans hu, ?_⟩
      have hsame : ∀ r z, g.roots r = some z →
          (x :: xs).any (·.path == r) = xs.any (·.path == r) := by
        intro r z hz
        have hne : x.path ≠ r := by
          rintro rfl
          rw [hx] at hz
          contradiction
        simp [hne]
      rw [hm.withoutRoots_congr hsame]
      exact hstored
    | some z =>
      obtain ⟨j, v, hv, hless⟩ := h.remove_root hm hx batch
      obtain ⟨m, u, hu, hstored⟩ := ih hless (hm.withoutRoots _) (k + 1)
      refine ⟨m, u, (Op.outcome_bind_ok (Op.outcome_attempt_of hv)).trans hu, ?_⟩
      rw [withoutRoots_withoutRoots] at hstored
      have hsame : ∀ r w, g.roots r = some w →
          (x :: xs).any (·.path == r) = (r == x.path || xs.any (·.path == r)) := by
        intro r _ _
        rw [List.any_cons, Bool.beq_comm]
      rw [hm.withoutRoots_congr hsame]
      exact hstored

/-- The cascade over all roots succeeds and leaves none. -/
theorem removeAll_roots (h : g.StoredIn n t) (hm : g.Mutual) (batch : Nat) :
    ∃ k u, (Roots.removeAll batch).outcome t = (.ok k, u) ∧
      (g.withoutRoots fun _ => true).StoredIn n u := by
  obtain ⟨xs, hxs, hmem⟩ := h.list_roots
  obtain ⟨k, u, hu, hstored⟩ := h.removeEach_roots hm batch xs 0
  refine ⟨k, u, (Op.outcome_bind_ok (Op.outcome_of_run hxs)).trans hu, ?_⟩
  have hall : ∀ r x, g.roots r = some x → true = xs.any (·.path == r) := by
    intro r x hx
    obtain rfl : x.path = r := (h.root r x hx).1
    rw [eq_comm, List.any_eq_true]
    exact ⟨x, (hmem x).2 hx, beq_self_eq_true x.path⟩
  rw [hm.withoutRoots_congr hall]
  exact hstored

end Roster.StoredIn

end SyncLedger
