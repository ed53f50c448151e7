/-
  SyncLedger/Proofs/RegistryWrites.lean
  =====================================
  **What the registry writes.**  Apart from the registration and the removal of a root, every
  transaction on clients and roots is a sequence of three kinds of writes (`RegistryWrite`): a client
  record is put or erased, or the record of a root that is there is put again under the path that it
  has.  A property of tables that these writes keep is kept by all of these operations; the
  registration of a root puts a record where there was neither a record nor a marker.
-/
import Mathlib.Logic.Relation
import SyncLedger.Proofs.Frames

namespace SyncLedger

/-- A write to a client record, or to the record of a root `r` that is there already. -/
inductive RegistryWrite (r : String) (t : Records) : Records → Prop where
  | client (id : Uuid) (c : Client) :
      RegistryWrite r t (t.insert (Key.client id).bytes (Codec.client.encode c))
  | noClient (id : Uuid) : RegistryWrite r t (t.erase (Key.client id).bytes)
  | root {old x : Root} (hold : t.fetch Codec.root (Key.root r).bytes = .ok (some old))
      (hpath : x.path = old.path) :
      RegistryWrite r t (t.insert (Key.root r).bytes (Codec.root.encode x))

/-- A table after some writes to clients and to one root. -/
abbrev RegistryWrites (r : String) : Records → Records → Prop :=
  Relation.ReflTransGen (RegistryWrite r)

variable {t s : Records} {r : String}

/-! ### Transactions -/

theorem Clients.detach_ok {id : Uuid} {c : Client} (h : Clients.detach id t = .ok (c, s)) :
    t.fetch Codec.client (Key.client id).bytes = .ok (some c) ∧
      s = t.erase (Key.client id).bytes := by
  obtain ⟨_, _, hrequire, h⟩ := Txn.bind_eq_ok_iff.1 h
  obtain ⟨hread, rfl⟩ := Txn.require_eq_ok_iff.1 hrequire
  obtain ⟨_, _, hdelete, h⟩ := Txn.bind_eq_ok_iff.1 h
  obtain ⟨_, rfl⟩ := Txn.delete_eq_ok_iff.1 hdelete
  obtain ⟨rfl, rfl⟩ := Txn.pure_eq_ok_iff.1 h
  exact ⟨hread, rfl⟩

/-- A root is put again where the client was a member, and else left alone. -/
theorem Clients.leave_ok {id : Uuid} {u : Unit} (h : Clients.leave id r t = .ok (u, s)) :
    s = t ∨ ∃ old, t.fetch Codec.root (Key.root r).bytes = .ok (some old) ∧
      s = t.insert (Key.root r).bytes
        (Codec.root.encode { old with members := old.members.erase id }) := by
  unfold Clients.leave at h
  obtain ⟨x, _, hfetch, h⟩ := Txn.bind_eq_ok_iff.1 h
  obtain ⟨hread, rfl⟩ := Txn.fetch_eq_ok_iff.1 hfetch
  cases x with
  | none => exact Or.inl (Txn.pure_eq_ok_iff.1 h).2.symm
  | some old =>
    simp only at h
    split at h
    · exact Or.inr ⟨old, hread, (Txn.put_eq_ok_iff.1 h).symm⟩
    · exact Or.inl (Txn.pure_eq_ok_iff.1 h).2.symm

theorem Clients.detach_writes {id : Uuid} {c : Client} (h : Clients.detach id t = .ok (c, s)) :
    RegistryWrites r t s := by
  obtain ⟨-, rfl⟩ := Clients.detach_ok h
  exact .single (.noClient id)

theorem Clients.leave_writes {id : Uuid} {u : Unit} (h : Clients.leave id r t = .ok (u, s)) :
    RegistryWrites r t s := by
  rcases Clients.leave_ok h with rfl | ⟨old, hold, rfl⟩
  · exact .refl
  · exact .single (.root hold rfl)

/-- The second half of joining a root: the client learns of it. -/
theorem Roots.enroll_client_writes {id : Uuid} {c : Client} {x y : Root} {b : Bool}
    (h : (if b = true then do Txn.put Codec.client (.client id) c; pure x else pure x : Txn Root) t
      = .ok (y, s)) : RegistryWrites r t s := by
  split at h
  · obtain ⟨_, _, hput, h⟩ := Txn.bind_eq_ok_iff.1 h
    obtain rfl := Txn.put_eq_ok_iff.1 hput
    obtain ⟨_, rfl⟩ := Txn.pure_eq_ok_iff.1 h
    exact .single (.client id c)
  · obtain ⟨_, rfl⟩ := Txn.pure_eq_ok_iff.1 h
    exact .refl

theorem Roots.enroll_writes {id : Uuid} {kept : String} {x : Root}
    (h : Roots.enroll r id kept t = .ok (x, s)) : RegistryWrites r t s := by
  unfold Roots.enroll at h
  obtain ⟨old, _, hrequire, h⟩ := Txn.bind_eq_ok_iff.1 h
  obtain ⟨hread, rfl⟩ := Txn.require_eq_ok_iff.1 hrequire
  split at h
  · obtain ⟨_, _, habort, _⟩ := Txn.bind_eq_ok_iff.1 h
    exact absurd habort Txn.abort_ne_ok
  · obtain ⟨c, _, hrequire, h⟩ := Txn.bind_eq_ok_iff.1 h
    obtain ⟨_, rfl⟩ := Txn.require_eq_ok_iff.1 hrequire
    split at h
    · obtain ⟨_, _, hput, h⟩ := Txn.bind_eq_ok_iff.1 h
      obtain rfl := Txn.put_eq_ok_iff.1 hput
      have hroot : RegistryWrite r t (t.insert (Key.root r).bytes
          (Codec.root.encode { old with members := old.members.insert id })) := .root hread rfl
      exact .head hroot (Roots.enroll_client_writes h)
    · exact Roots.enroll_client_writes h

theorem Roots.forgetBy_writes {ids : List Uuid} {u : Unit}
    (h : Roots.forgetBy r ids t = .ok (u, s)) : RegistryWrites r t s := by
  induction ids generalizing t with
  | nil =>
    obtain ⟨_, rfl⟩ := Txn.pure_eq_ok_iff.1 h
    exact .refl
  | cons id ids ih =>
    unfold Roots.forgetBy at h
    obtain ⟨c, _, hfetch, h⟩ := Txn.bind_eq_ok_iff.1 h
    obtain ⟨_, rfl⟩ := Txn.fetch_eq_ok_iff.1 hfetch
    cases c with
    | none => exact ih h
    | some c =>
      simp only at h
      split at h
      · obtain ⟨_, _, hput, h⟩ := Txn.bind_eq_ok_iff.1 h
        obtain rfl := Txn.put_eq_ok_iff.1 hput
        exact .head (.client id _) (ih h)
      · exact ih h

/-- A root that is taken out of use was there.  Its members forget it first. -/
theorem Roots.detach_writes {u : Unit} (h : Roots.detach r t = .ok (u, s)) :
    t.has (.root r) = true ∧ ∃ t', RegistryWrites r t t' ∧ s = Roots.detached r t' := by
  obtain ⟨x, _, hrequire, h⟩ := Txn.bind_eq_ok_iff.1 h
  obtain ⟨hread, rfl⟩ := Txn.require_eq_ok_iff.1 hrequire
  obtain ⟨b, hb, -⟩ := Table.fetch_eq_some_iff.1 hread
  obtain ⟨_, t', hforget, h⟩ := Txn.bind_eq_ok_iff.1 h
  obtain ⟨_, _, hdelete, h⟩ := Txn.bind_eq_ok_iff.1 h
  obtain ⟨_, rfl⟩ := Txn.delete_eq_ok_iff.1 hdelete
  obtain rfl := Txn.put_eq_ok_iff.1 h
  exact ⟨Table.has_iff.2 ⟨b, hb⟩, t', Roots.forgetBy_writes hforget, rfl⟩

/-- A root is registered where there is neither a root nor the marker of one. -/
theorem Roots.register_cases {secrets : PasswordScheme} {owner password : String} {salt : Bytes}
    {now : Instant} :
    (∃ e, Roots.register secrets r owner password salt now = Op.fail e) ∨
      ∃ x : Root, x.path = r ∧ ∃ y, Roots.register secrets r owner password salt now = Op.commit y ∧
        ∀ t v s, y t = .ok (v, s) → t.has (.root r) = false ∧ t.has (.marker r none) = false ∧
          s = t.insert (Key.root r).bytes (Codec.root.encode x) := by
  unfold Roots.register
  split
  · exact Or.inl ⟨_, rfl⟩
  · split
    · exact Or.inl ⟨_, rfl⟩
    · rename_i kept _
      let x : Root :=
        { path := r, owner, passwordHash := kept, epoch := 0, members := .empty, createdAt := now }
      refine Or.inr ⟨x, rfl, _, rfl, ?_⟩
      intro t v s h
      obtain ⟨taken, _, htaken, h⟩ := Txn.bind_eq_ok_iff.1 h
      obtain ⟨rfl, rfl⟩ := Txn.has_eq_ok_iff.1 htaken
      split at h
      · obtain ⟨_, _, habort, _⟩ := Txn.bind_eq_ok_iff.1 h
        exact absurd habort Txn.abort_ne_ok
      · rename_i hfree
        obtain ⟨marked, _, hmarked, h⟩ := Txn.bind_eq_ok_iff.1 h
        obtain ⟨rfl, rfl⟩ := Txn.has_eq_ok_iff.1 hmarked
        split at h
        · obtain ⟨_, _, habort, _⟩ := Txn.bind_eq_ok_iff.1 h
          exact absurd habort Txn.abort_ne_ok
        · rename_i hunmarked
          obtain ⟨_, _, hput, h⟩ := Txn.bind_eq_ok_iff.1 h
          obtain rfl := Txn.put_eq_ok_iff.1 hput
          obtain ⟨_, rfl⟩ := Txn.pure_eq_ok_iff.1 h
          exact ⟨by simpa using hfree, by simpa using hunmarked, rfl⟩

/-! ### Operations -/

namespace RegistryWrite

variable {P : Records → Prop}

theorem get?_of_outside (h : RegistryWrite r t s) {k : Bytes} (hk : Key.Outside k) :
    s.get? k = t.get? k := by
  cases h with
  | client id c =>
    have hne : k ≠ (Key.client id).bytes := fun heq => hk.1 (heq ▸ List.prefix_append _ _)
    simp [hne]
  | noClient id =>
    have hne : k ≠ (Key.client id).bytes := fun heq => hk.1 (heq ▸ List.prefix_append _ _)
    simp [hne]
  | root =>
    have hne : k ≠ (Key.root r).bytes := fun heq => hk.2 (heq ▸ List.prefix_append _ _)
    simp [hne]

theorem keeps (hP : ∀ t s, RegistryWrite r t s → P t → P s) (h : RegistryWrites r t s)
    (ht : P t) : P s := by
  induction h with
  | refl => exact ht
  | tail _ hwrite ih => exact hP _ _ hwrite ih

theorem keeps_commit {α : Type} {y : Txn α} (hP : ∀ t s, RegistryWrite r t s → P t → P s)
    (hy : ∀ t v s, y t = .ok (v, s) → RegistryWrites r t s) : Op.Keeps P (Op.commit y) := by
  apply Op.keeps_commit
  intro t v s ht hs
  exact keeps hP (hy t v s hs) ht

theorem keeps_registerClient (hP : ∀ t s, RegistryWrite r t s → P t → P s) (id : Uuid)
    (ordinal : UInt64) (address : String) (now : Instant) :
    Op.Keeps P (Clients.register id ordinal address now) := by
  apply keeps_commit hP
  intro t v s h
  obtain ⟨_, _, hput, h⟩ := Txn.bind_eq_ok_iff.1 h
  obtain rfl := Txn.put_eq_ok_iff.1 hput
  obtain ⟨_, rfl⟩ := Txn.pure_eq_ok_iff.1 h
  exact .single (.client id _)

theorem keeps_removeClient (hP : ∀ r t s, RegistryWrite r t s → P t → P s) (id : Uuid) :
    Op.Keeps P (Clients.remove id) := by
  apply Op.Keeps.removeClient
  · exact keeps_commit (hP "") fun _ _ _ => Clients.detach_writes
  · intro r
    exact keeps_commit (hP r) fun _ _ _ => Clients.leave_writes

theorem keeps_removeAllClients (hP : ∀ r t s, RegistryWrite r t s → P t → P s) :
    Op.Keeps P Clients.removeAll :=
  .removeAllClients (keeps_removeClient hP)

theorem keeps_registerRoot
    (hP : ∀ t x, x.path = r → t.has (.root r) = false → t.has (.marker r none) = false → P t →
      P (t.insert (Key.root r).bytes (Codec.root.encode x)))
    (secrets : PasswordScheme) (owner password : String) (salt : Bytes) (now : Instant) :
    Op.Keeps P (Roots.register secrets r owner password salt now) := by
  rcases Roots.register_cases with ⟨e, hfail⟩ | ⟨x, hpath, y, hcommit, hy⟩
  · rw [hfail]
    exact Op.keeps_fail e
  · rw [hcommit]
    apply Op.keeps_commit
    intro t v s ht hs
    obtain ⟨hfree, hunmarked, rfl⟩ := hy t v s hs
    exact hP t x hpath hfree hunmarked ht

variable (hP : ∀ t s, RegistryWrite r t s → P t → P s)

include hP

theorem keeps_join (secrets : PasswordScheme) (id : Uuid) (password : String) :
    Op.Keeps P (Roots.join secrets r id password) := by
  refine (Op.keeps_read _).bind ?_
  intro x
  split
  · exact Op.keeps_fail _
  · exact Op.keeps_fail _
  · exact keeps_commit hP fun _ _ _ => Roots.enroll_writes

theorem keeps_setPassword (secrets : PasswordScheme) (password : String) (salt : Bytes) :
    Op.Keeps P (Roots.setPassword secrets r password salt) := by
  unfold Roots.setPassword
  split
  · exact Op.keeps_fail _
  · apply keeps_commit hP
    intro t v s h
    obtain ⟨old, _, hrequire, h⟩ := Txn.bind_eq_ok_iff.1 h
    obtain ⟨hread, rfl⟩ := Txn.require_eq_ok_iff.1 hrequire
    obtain ⟨_, _, hput, h⟩ := Txn.bind_eq_ok_iff.1 h
    obtain rfl := Txn.put_eq_ok_iff.1 hput
    obtain ⟨_, rfl⟩ := Txn.pure_eq_ok_iff.1 h
    exact .single (.root hread rfl)

theorem keeps_removeRoot {batch : Nat} (hdetach : ∀ t, P t → P (Roots.detached r t))
    (hpurge : ∀ t, t.has (.root r) = true → P t → Op.Keeps P (Roots.purge r batch)) :
    Op.Keeps P (Roots.remove r batch) := by
  have hcommit : Op.Keeps P (Op.commit (Roots.detach r)) := by
    apply Op.keeps_commit
    intro t v s ht hs
    obtain ⟨-, t', hwrites, rfl⟩ := Roots.detach_writes hs
    exact hdetach t' (keeps hP hwrites ht)
  apply hcommit.bind_of_ok
  intro t v ht hv
  obtain ⟨s, hs⟩ := Op.exists_of_commit hv
  exact hpurge t (Roots.detach_writes hs).1 ht

theorem keeps_resetPassword (secrets : PasswordScheme) (configured : Option String)
    (generated : String) (salt : Bytes) :
    Op.Keeps P (Roots.resetPassword secrets configured generated r salt) :=
  (keeps_setPassword hP secrets _ salt).bind fun _ => Op.keeps_pure _

end RegistryWrite

end SyncLedger
