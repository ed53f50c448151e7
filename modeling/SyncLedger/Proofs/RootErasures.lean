/-
  SyncLedger/Proofs/RootErasures.lean
  ===================================
  **Removing a root erases that root and nothing else.**  What a removal leaves is given by two
  functions of the table: the members forget the root (`Table.forgetEach`), and then every key that
  the root owns is gone (`Roots.leftBy`).  A removal ends so if the records of all members can be
  read, and commits nothing if one of them cannot (`Roots.outcome_remove_of_reads`,
  `Roots.remove_unreadable`).

  Nothing is asked of the rest of the table, nor of the length of the name of the root: the keys of
  short names that are erased are those of the root (`Key.erasedWith_iff`).
-/
import SyncLedger.Engine
import SyncLedger.Proofs.KeyReading
import SyncLedger.Proofs.Removals
import SyncLedger.Proofs.Sessions
import SyncLedger.Proofs.StoredForms

namespace SyncLedger

variable {t s : Records} {r q : String} {id : Uuid} {ids : List Uuid} {k : Bytes} {c : Client}

/-! ### Clients that forget a root -/

/-- A client that is no member of a root any more. -/
def Client.forget (r : String) (c : Client) : Client := { c with roots := c.roots.erase r }

namespace Client

theorem forget_of_not_mem (h : ¬ r ∈ c.roots) : c.forget r = c := by
  rw [forget, OrderedSet.erase_of_not_mem h]

theorem not_mem_forget (r : String) (c : Client) : ¬ r ∈ (c.forget r).roots := by
  simp [forget]

theorem forget_forget (r : String) (c : Client) : (c.forget r).forget r = c.forget r :=
  forget_of_not_mem (not_mem_forget r c)

end Client

theorem Key.client_bytes_inj {a b : Uuid} : (Key.client a).bytes = (Key.client b).bytes ↔ a = b := by
  simp [Key.bytes_client, Key.uuid_bytes_inj]

/-- A client that was read can be written without a root, and read again. -/
theorem Codec.reads_forget {b : Bytes} (h : Codec.client.read? b = some c) (r : String) :
    Codec.client.read? (Codec.client.encode (c.forget r)) = some (c.forget r) := by
  obtain ⟨⟨c', rest⟩, hdecode, rfl⟩ := Option.map_eq_some_iff.1 h
  have hstorable := (Codec.strict_client b c' rest hdecode).1
  have hforgot : Client.Storable (2 ^ 64 - 1) (c'.forget r) :=
    ⟨hstorable.address, fun q hq => hstorable.roots q (OrderedSet.mem_erase.1 hq).1,
      (OrderedSet.length_without_le _ _).trans hstorable.size, hstorable.registeredAt⟩
  exact (Codec.restores_client hforgot (by omega)).read?

namespace Table

/-- The table after a client has forgotten a root, if it has a record that lists the root. -/
def forget (t : Records) (r : String) (id : Uuid) : Records :=
  match t.fetch Codec.client (Key.client id).bytes with
  | .ok (some c) =>
    if c.roots.contains r then
      t.insert (Key.client id).bytes (Codec.client.encode (c.forget r))
    else t
  | _ => t

/-- The table after each of several clients has forgotten a root. -/
def forgetEach (t : Records) (r : String) (ids : List Uuid) : Records :=
  ids.foldl (fun t id => t.forget r id) t

/-- A key that is not of a client that lists the root keeps its value. -/
theorem get?_forget (h : ∀ c, t.fetch Codec.client (Key.client id).bytes = .ok (some c) →
    r ∈ c.roots → k ≠ (Key.client id).bytes) : (t.forget r id).get? k = t.get? k := by
  unfold forget
  split
  · rename_i c hc
    split
    · rename_i hlists
      rw [get?_insert, if_neg (h c hc (OrderedSet.contains_iff.1 hlists))]
    · rfl
  · rfl

/-- Only the one client forgets the root, and nothing else of it changes. -/
theorem fetch_forget (t : Records) (r : String) (id id' : Uuid) :
    (t.forget r id).fetch Codec.client (Key.client id').bytes =
      if id' = id then
        (t.fetch Codec.client (Key.client id').bytes).map (Option.map (Client.forget r))
      else t.fetch Codec.client (Key.client id').bytes := by
  split
  · rename_i heq
    subst heq
    unfold forget
    split
    · rename_i c hc
      rw [hc]
      split
      · obtain ⟨b, -, hread⟩ := fetch_eq_some_iff.1 hc
        exact fetch_eq_some_iff.2 ⟨_, by rw [get?_insert, if_pos rfl], Codec.reads_forget hread r⟩
      · rename_i hlists
        have hout : ¬ r ∈ c.roots := by simpa using hlists
        rw [hc]
        simp [Except.map, Client.forget_of_not_mem hout]
    · rename_i hother
      cases hc : t.fetch Codec.client (Key.client id').bytes with
      | error e => rfl
      | ok c =>
        cases c with
        | none => rfl
        | some c => exact absurd hc (hother c)
  · rename_i hne
    apply fetch_congr
    apply get?_forget
    intro _ _ _ heq
    exact hne (Key.client_bytes_inj.1 heq)

/-- Each of the clients forgets the root, and nothing else of a client changes. -/
theorem fetch_forgetEach (t : Records) (r : String) (ids : List Uuid) (id : Uuid) :
    (t.forgetEach r ids).fetch Codec.client (Key.client id).bytes =
      if id ∈ ids then
        (t.fetch Codec.client (Key.client id).bytes).map (Option.map (Client.forget r))
      else t.fetch Codec.client (Key.client id).bytes := by
  induction ids generalizing t with
  | nil => rfl
  | cons id' ids ih =>
    refine (ih (t.forget r id')).trans ?_
    rw [fetch_forget]
    by_cases heq : id = id'
    · subst heq
      -- a client that is named twice forgets the root twice
      cases t.fetch Codec.client (Key.client id).bytes with
      | error e => simp [Except.map]
      | ok c => cases c <;> simp [Except.map, Client.forget_forget]
    · simp [heq]

theorem get?_forgetEach (h : ∀ id ∈ ids, ∀ c,
    t.fetch Codec.client (Key.client id).bytes = .ok (some c) → r ∈ c.roots →
      k ≠ (Key.client id).bytes) : (t.forgetEach r ids).get? k = t.get? k := by
  induction ids generalizing t with
  | nil => rfl
  | cons id' ids ih =>
    refine (ih fun id hid c hc hlists => ?_).trans (get?_forget (h id' List.mem_cons_self))
    rw [fetch_forget] at hc
    split at hc
    · cases hold : t.fetch Codec.client (Key.client id).bytes with
      | error e => simp [hold, Except.map] at hc
      | ok old =>
        rw [hold] at hc
        obtain ⟨c', -, rfl⟩ := Option.map_eq_some_iff.1 (Except.ok.inj hc)
        exact absurd hlists (Client.not_mem_forget r c')
    · exact h id (List.mem_cons_of_mem _ hid) c hc hlists

/-- Whether the records of clients can be read; one that is not there can. -/
def reads (t : Records) (ids : List Uuid) : Bool :=
  ids.all fun id => (t.fetch Codec.client (Key.client id).bytes).isOk

theorem reads_iff : t.reads ids = true ↔
    ∀ id ∈ ids, ∃ c, t.fetch Codec.client (Key.client id).bytes = .ok c := by
  simp only [reads, List.all_eq_true]
  refine forall₂_congr fun id _ => ?_
  cases t.fetch Codec.client (Key.client id).bytes <;> simp [Except.isOk, Except.toBool]

theorem exists_unreadable (h : t.reads ids = false) : ∃ id ∈ ids,
    t.fetch Codec.client (Key.client id).bytes = .error (.serialization none) := by
  obtain ⟨id, hid, hfail⟩ := List.all_eq_false.1 h
  refine ⟨id, hid, ?_⟩
  cases hfetch : t.fetch Codec.client (Key.client id).bytes with
  | error e => rw [fetch_eq_error hfetch]
  | ok c => simp [hfetch, Except.isOk, Except.toBool] at hfail

/-- No record becomes readable or unreadable when a client forgets a root. -/
theorem reads_forgetEach (t : Records) (r : String) (ids ids' : List Uuid) :
    (t.forgetEach r ids).reads ids' = t.reads ids' := by
  unfold reads
  congr 1
  funext id
  rw [fetch_forgetEach]
  split
  · cases t.fetch Codec.client (Key.client id).bytes <;> rfl
  · rfl

end Table

/-- Clients forget a root if all of their records can be read; else the transaction fails. -/
theorem Roots.forgetBy_eq (r : String) (ids : List Uuid) (t : Records) :
    forgetBy r ids t =
      if t.reads ids then .ok ((), t.forgetEach r ids) else .error (.serialization none) := by
  induction ids generalizing t with
  | nil => rfl
  | cons id ids ih =>
    have hrest := Table.reads_forgetEach t r [id] ids
    unfold forgetBy
    cases hfetch : t.fetch Codec.client (Key.client id).bytes with
    | error e =>
      rw [Txn.bind_of_error (Txn.fetch_of_error hfetch)]
      simp [Table.reads, hfetch, Except.isOk, Except.toBool, Table.fetch_eq_error hfetch]
    | ok c =>
      have hreads : t.reads (id :: ids) = (t.forget r id).reads ids := by
        refine Eq.trans ?_ hrest.symm
        simp [Table.reads, hfetch, Except.isOk, Except.toBool]
      have heach : t.forgetEach r (id :: ids) = (t.forget r id).forgetEach r ids := rfl
      rw [Txn.bind_of_ok (Txn.fetch_eq_ok_iff.2 ⟨hfetch, rfl⟩), hreads, heach, ← ih]
      unfold Table.forget
      rw [hfetch]
      cases c with
      | none => rfl
      | some c =>
        dsimp only
        split
        · exact Txn.bind_of_ok (v := ()) (Txn.put_eq_ok_iff.2 rfl)
        · rfl

/-! ### Keys that go with a root -/

namespace Key

/-- A file or a version has no key of another family. -/
theorem ne_of_family (hk : files <+: k ∨ versions <+: k) (key : Key)
    (hfile : ∀ q p, key ≠ .file q p) (hversion : ∀ q p ts, key ≠ .version q p ts) :
    k ≠ key.bytes := by
  rintro rfl
  rcases hk with hk | hk
  · obtain ⟨q, p, rfl⟩ := files_prefix_iff.1 hk
    exact hfile q p rfl
  · obtain ⟨q, p, ts, rfl⟩ := versions_prefix_iff.1 hk
    exact hversion q p ts rfl

/-- A key that goes when a root is removed: the root itself, whatever has its name as its first
    segment among the files and the versions, and the marker of its removal. -/
def ErasedWith (r : String) (k : Bytes) : Prop :=
  k = (Key.root r).bytes ∨ filesOf r <+: k ∨ versionsOf r <+: k ∨ k = (Key.marker r none).bytes

section Short

variable {key : Key} (hkey : key.Fits)
include hkey

theorem filesOf_prefix_iff_of_fits : filesOf r <+: key.bytes ↔ ∃ p, key = .file r p := by
  constructor
  · intro h
    obtain ⟨q, p, rfl⟩ := files_prefix_iff.1 ((List.prefix_append _ _).trans h)
    obtain rfl := (filesOf_prefix_file_iff hkey.1 hkey.2).1 h
    exact ⟨p, rfl⟩
  · rintro ⟨p, rfl⟩
    exact List.prefix_append _ _

theorem versionsOf_prefix_iff_of_fits :
    versionsOf r <+: key.bytes ↔ ∃ p ts, key = .version r p ts := by
  constructor
  · intro h
    obtain ⟨q, p, ts, rfl⟩ := versions_prefix_iff.1 ((List.prefix_append _ _).trans h)
    obtain rfl := (versionsOf_prefix_version_iff hkey.1 hkey.2).1 h
    exact ⟨p, ts, rfl⟩
  · rintro ⟨p, ts, rfl⟩
    exact (List.prefix_append _ _).trans (List.prefix_append _ _)

theorem bytes_eq_marker_iff {m : Option String} :
    key.bytes = (Key.marker r m).bytes ↔ key = .marker r m := by
  constructor
  · intro h
    have hmarkers : markers <+: key.bytes := by
      rw [h, bytes_marker]
      exact List.prefix_append _ _
    obtain ⟨q, o, rfl⟩ := markers_prefix_iff.1 hmarkers
    obtain ⟨rfl, rfl⟩ := (marker_bytes_inj_of_short hkey.1 hkey.2).1 h.symm
    rfl
  · rintro rfl
    rfl

/-- Of the keys of short names those of the root go. -/
theorem erasedWith_iff : ErasedWith r key.bytes ↔ key.isOfRoot r = true := by
  rw [ErasedWith, eq_comm, root_bytes_inj, filesOf_prefix_iff_of_fits hkey,
    versionsOf_prefix_iff_of_fits hkey, bytes_eq_marker_iff hkey]
  cases key with
  | client | root | file | version => simp [isOfRoot]
  | marker q o => cases o <;> simp [isOfRoot]

end Short

theorem not_erasedWith_client (r : String) (id : Uuid) : ¬ ErasedWith r (Key.client id).bytes := by
  have hkey : (Key.client id).Fits := trivial
  simp [erasedWith_iff hkey, isOfRoot]

end Key

namespace Roots

/-- What is left of a table by the removal of a root with these members. -/
def leftBy (r : String) (ids : List Uuid) (t : Records) : Records := removed r (t.forgetEach r ids)

theorem get?_removed_of_erased (h : Key.ErasedWith r k) : (removed r t).get? k = none := by
  unfold removed
  simp only [Table.get?_erase, Table.get?_eraseUnder]
  rcases h with h | h | h | h <;> simp [h]

theorem get?_removed_of_kept (h : ¬ Key.ErasedWith r k) : (removed r t).get? k = t.get? k := by
  unfold Key.ErasedWith at h
  push Not at h
  obtain ⟨hroot, hfiles, hversions, hmarker⟩ := h
  simp [removed, Table.get?_erase, Table.get?_eraseUnder, hroot, hfiles, hversions, hmarker]

theorem get?_leftBy_of_erased (h : Key.ErasedWith r k) : (leftBy r ids t).get? k = none :=
  get?_removed_of_erased h

/-- A key that neither goes with the root nor is of a member that lists it keeps its value. -/
theorem get?_leftBy_of_kept (h : ¬ Key.ErasedWith r k) (hclients : ∀ id ∈ ids, ∀ c,
    t.fetch Codec.client (Key.client id).bytes = .ok (some c) → r ∈ c.roots →
      k ≠ (Key.client id).bytes) : (leftBy r ids t).get? k = t.get? k :=
  (get?_removed_of_kept h).trans (Table.get?_forgetEach hclients)

theorem fetch_client_leftBy (r : String) (ids : List Uuid) (t : Records) (id : Uuid) :
    (leftBy r ids t).fetch Codec.client (Key.client id).bytes =
      if id ∈ ids then
        (t.fetch Codec.client (Key.client id).bytes).map (Option.map (Client.forget r))
      else t.fetch Codec.client (Key.client id).bytes :=
  (Table.fetch_congr (get?_removed_of_kept (Key.not_erasedWith_client r id)) _).trans
    (Table.fetch_forgetEach t r ids id)

/-! ### The removal -/

/-- No file and no version is touched before the purge. -/
theorem get?_detached_forgetEach (hk : Key.files <+: k ∨ Key.versions <+: k) :
    (detached r (t.forgetEach r ids)).get? k = t.get? k := by
  rw [get?_detached (Key.ne_of_family hk (.marker r none) nofun nofun), Table.get?_erase,
    if_neg (Key.ne_of_family hk (.root r) nofun nofun)]
  exact Table.get?_forgetEach fun id _ _ _ _ => Key.ne_of_family hk (.client id) nofun nofun

theorem under_detached_files (r : String) (ids : List Uuid) (t : Records) :
    (detached r (t.forgetEach r ids)).under (Key.filesOf r) = t.under (Key.filesOf r) :=
  Table.under_congr fun _ hk => get?_detached_forgetEach (Or.inl ((List.prefix_append _ _).trans hk))

theorem under_detached_versions (r : String) (ids : List Uuid) (t : Records) :
    ((detached r (t.forgetEach r ids)).eraseUnder (Key.filesOf r)).under (Key.versionsOf r)
      = t.under (Key.versionsOf r) := by
  have hfiles : Key.files <+: Key.filesOf r := List.prefix_append _ _
  have hversions : Key.versions <+: Key.versionsOf r := List.prefix_append _ _
  rw [Table.under_eraseUnder_apart _ (Key.files_apart_versions hfiles hversions)]
  exact Table.under_congr fun _ hk => get?_detached_forgetEach (Or.inr (hversions.trans hk))

section Registered

variable {x : Root} (hx : t.fetch Codec.root (Key.root r).bytes = .ok (some x))
include hx

/-- A root whose members can be read is removed, with all that it owns, in batches of any size. -/
theorem outcome_remove_of_reads (h : t.reads x.members.toList = true) (batch : Nat) :
    (remove r batch).outcome t
      = (.ok ⟨(t.under (Key.filesOf r)).length, (t.under (Key.versionsOf r)).length⟩,
        leftBy r x.members.toList t) := by
  have hforget := forgetBy_eq r x.members.toList t
  rw [if_pos h] at hforget
  have hdetach : detach r t = .ok ((), detached r (t.forgetEach r x.members.toList)) := by
    unfold detach
    rw [Txn.bind_of_ok (Txn.require_eq_ok_iff.2 ⟨hx, rfl⟩), Txn.bind_of_ok hforget]
    exact Txn.bind_of_ok (Txn.delete_eq_ok_iff.2 ⟨rfl, rfl⟩)
  have hpurge := outcome_purge r batch (detached r (t.forgetEach r x.members.toList))
  rw [removed_of_detached, under_detached_files, under_detached_versions] at hpurge
  exact (Op.outcome_bind_ok (Op.outcome_commit_ok hdetach)).trans hpurge

/-- A member whose record cannot be read stops the removal before it commits anything. -/
theorem remove_unreadable (h : t.reads x.members.toList = false) (batch : Nat) :
    remove r batch t = ⟨[], .error (.serialization none)⟩ := by
  have hforget := forgetBy_eq r x.members.toList t
  rw [if_neg (by simp [h])] at hforget
  have hdetach : detach r t = .error (.serialization none) := by
    unfold detach
    rw [Txn.bind_of_ok (Txn.require_eq_ok_iff.2 ⟨hx, rfl⟩), Txn.bind_of_error hforget]
  exact Op.run_bind_error (Op.commit_of_error hdetach)

end Registered

end Roots

/-! ### Registering the name again -/

namespace Roots

/-- A registered root of which there is nothing to be seen: no member, no file and no version. -/
structure Bare (r : String) (t : Records) : Prop where
  members : (members r).outcome t = (.ok [], t)
  files : (Files.list (.root r)).outcome t = (.ok [], t)
  file : ∀ p, (Files.list (.path r p)).outcome t = (.ok [], t)
  versions : (History.list (.root r)).outcome t = (.ok [], t)
  version : ∀ p, (History.list (.path r p)).outcome t = (.ok [], t)

theorem list_versions_of_under {scope : Scope} (h : t.under (History.prefixOf scope) = []) :
    (History.list scope).outcome t = (.ok [], t) := by
  simp only [History.list, Op.outcome_read, Table.scan, h, Table.decodeAll]
  show (Except.ok (List.mergeSort [] _), t) = _
  rw [List.mergeSort_nil]

theorem bare {x : Root} (hx : t.fetch Codec.root (Key.root r).bytes = .ok (some x))
    (hmembers : x.members = .empty)
    (hnone : ∀ k, Key.filesOf r <+: k ∨ Key.versionsOf r <+: k → t.get? k = none) : Bare r t where
  members := by
    have hget : (get r).outcome t = (.ok x, t) := by
      simp only [get, Op.outcome_read, hx]
      rfl
    rw [Roots.members, Op.outcome_bind_ok hget, hmembers]
    rfl
  files := by
    have hunder := Table.under_eq_nil_iff.2 fun k hk => hnone k (Or.inl hk)
    simp only [Files.list, Files.listUnder, Op.outcome_read, Table.scan, hunder, Table.decodeAll]
    rfl
  file p := by
    have hfile : t.fetch Codec.file (Key.file r p).bytes = .ok none :=
      Table.fetch_eq_none_iff.2 (hnone _ (Or.inl (List.prefix_append _ _)))
    obtain ⟨m, hm⟩ := Journal.StoredIn.latest_missing (r := r) (Or.inr hfile)
    exact Journal.StoredIn.list_path_of_missing hm
  versions :=
    list_versions_of_under (Table.under_eq_nil_iff.2 fun k hk => hnone k (Or.inr hk))
  version p :=
    list_versions_of_under (Table.under_eq_nil_iff.2 fun k hk =>
      hnone k (Or.inr ((List.prefix_append _ _).trans hk)))

/-- A root can be registered where neither it nor a marker of it stands. -/
theorem outcome_register {secrets : PasswordScheme} {owner password kept : String} {salt : Bytes}
    {now : Instant} (hname : r ≠ "") (hkept : secrets.hash salt password = .ok kept)
    (hroot : t.has (.root r) = false) (hmarker : t.has (.marker r none) = false) :
    let x : Root :=
      { path := r, owner, passwordHash := kept, epoch := 0, members := .empty, createdAt := now }
    (register secrets r owner password salt now).outcome t
      = (.ok x, t.insert (Key.root r).bytes (Codec.root.encode x)) := by
  unfold register
  rw [if_neg (by simpa using hname)]
  simp only [hkept]
  apply Op.outcome_commit_ok
  rw [Txn.bind_of_ok (Txn.has_eq_ok_iff.2 ⟨hroot, rfl⟩)]
  exact Txn.bind_of_ok (Txn.has_eq_ok_iff.2 ⟨hmarker, rfl⟩)

end Roots

/-! ### The theorem -/

/-- **Removing a root erases that root and nothing else.**  If the record of the root and those of
    its members can be read, the removal succeeds, whatever the size of its batches and whatever
    else the table holds.  It answers with the numbers of the file and version keys that the root
    had, a rename counting once for each copy of its version.  Afterwards the root, its files and
    versions and its marker are gone; each member that has a record is without the root and
    otherwise as it was; and every other key has the value that it had.  Among the keys of short
    names the ones that are gone are just those of the root, so a root whose name begins with that
    of the other keeps all of its records.  The name can be registered again at once, and then
    there is no member, file or version to be seen. -/
theorem removeRoot_exact {x : Root} (hx : t.fetch Codec.root (Key.root r).bytes = .ok (some x))
    (hmembers : ∀ id ∈ x.members, ∃ c, t.fetch Codec.client (Key.client id).bytes = .ok c)
    (e : Engine) :
    ∃ s, (e.removeRoot r).outcome t =
        (.ok ⟨(t.under (Key.filesOf r)).length, (t.under (Key.versionsOf r)).length⟩, s) ∧
      (∀ k, Key.ErasedWith r k → s.get? k = none) ∧
      (∀ id ∈ x.members, ∀ c, t.fetch Codec.client (Key.client id).bytes = .ok (some c) →
        s.fetch Codec.client (Key.client id).bytes
          = .ok (some { c with roots := c.roots.erase r })) ∧
      (∀ k, ¬ Key.ErasedWith r k →
        (∀ id ∈ x.members, ∀ c, t.fetch Codec.client (Key.client id).bytes = .ok (some c) →
          r ∈ c.roots → k ≠ (Key.client id).bytes) → s.get? k = t.get? k) ∧
      (∀ key : Key, key.Fits → (∀ id, key ≠ .client id) →
        s.get? key.bytes = if key.isOfRoot r then none else t.get? key.bytes) ∧
      ∀ owner password salt now kept, r ≠ "" → e.secrets.hash salt password = .ok kept →
        let y : Root :=
          { path := r, owner, passwordHash := kept, epoch := 0, members := .empty, createdAt := now }
        y.Storable 0 → ∃ u, (e.registerRoot r owner password salt now).outcome s = (.ok y, u) ∧
          Roots.Bare r u := by
  refine ⟨Roots.leftBy r x.members.toList t, ?_, fun k => Roots.get?_leftBy_of_erased, ?_,
    fun k => Roots.get?_leftBy_of_kept, ?_, ?_⟩
  · exact Roots.outcome_remove_of_reads hx (Table.reads_iff.2 hmembers) e.batch
  · intro id hid c hc
    rw [Roots.fetch_client_leftBy, if_pos (OrderedSet.mem_toList.2 hid), hc]
    rfl
  · intro key hkey hclient
    split
    · rename_i hof
      exact Roots.get?_leftBy_of_erased ((Key.erasedWith_iff hkey).2 hof)
    · rename_i hother
      refine Roots.get?_leftBy_of_kept (mt (Key.erasedWith_iff hkey).1 hother) ?_
      intro id _ c _ _ heq
      exact hclient id ((Key.bytes_inj (l := .client id) hkey trivial).1 heq)
  · intro owner password salt now kept hname hkept y hy
    have hgone {key : Key} (h : Key.ErasedWith r key.bytes) :
        (Roots.leftBy r x.members.toList t).has key = false :=
      Table.has_eq_false_iff.2 (Roots.get?_leftBy_of_erased h)
    refine ⟨_, Roots.outcome_register hname hkept (hgone (Or.inl rfl))
      (hgone (Or.inr (Or.inr (Or.inr rfl)))), ?_⟩
    have hread : Codec.root.read? (Codec.root.encode y) = some y :=
      (Codec.restores_root hy (by decide)).read?
    refine Roots.bare (x := y) (Table.fetch_eq_some_iff.2 ⟨_, ?_, hread⟩) rfl fun k hk => ?_
    · rw [Table.get?_insert, if_pos rfl]
    · have hfamily : Key.files <+: k ∨ Key.versions <+: k :=
        hk.imp (List.prefix_append _ _).trans (List.prefix_append _ _).trans
      have hroot : k ≠ (Key.root r).bytes := Key.ne_of_family hfamily (.root r) nofun nofun
      rw [Table.get?_insert, if_neg hroot]
      exact Roots.get?_leftBy_of_erased (Or.inr (hk.imp_right Or.inl))

/-- The name of one root begins with that of the other. -/
def Session.nestedNames : List Call :=
  [.registerClient ⟨1⟩ "c" ⟨0, 0⟩, .registerRoot "r" "o" "s" [] ⟨0, 0⟩,
    .registerRoot "rr" "o" "s" [] ⟨0, 0⟩, .joinRoot "r" ⟨1⟩ "s", .joinRoot "rr" ⟨1⟩ "s",
    seen "a" "h" 1 none, seen "b" "h" 2 (some "a"),
    .observe { root := "rr", path := "a", client := ⟨1⟩, hash := "g", stamp := .next } ⟨0, 0⟩]

/-- The first root goes with both copies of its rename, and the second stays. -/
theorem removed_beside_longer_name :
    let t := ((Session.fresh Session.plain).run Session.nestedNames).records
    ∃ s, (Session.plain.removeRoot "r").outcome t = (.ok ⟨2, 3⟩, s) ∧
      s.get? (Key.file "r" "b").bytes = none ∧
      t.has (.file "rr" "a") = true ∧
      s.get? (Key.file "rr" "a").bytes = t.get? (Key.file "rr" "a").bytes ∧
      (∃ c, s.fetch Codec.client (Key.client ⟨1⟩).bytes = .ok (some c) ∧ c.roots.toList = ["rr"]) ∧
      ∃ y u, (Session.plain.registerRoot "r" "o" "s" [] ⟨0, 0⟩).outcome s = (.ok y, u) ∧
        Roots.Bare "r" u := by
  intro t
  have hroot : ((t.fetch Codec.root (Key.root "r").bytes).toOption.join.any
      fun x => x.members.toList = [⟨1⟩]) = true := by decide +kernel
  obtain ⟨x, hx, hlisted⟩ := (Option.any_eq_true _ _).1 hroot
  have hfetch := eq_ok_of_toOption (Option.join_eq_some_iff.1 hx)
  have hone : x.members.toList = [⟨1⟩] := by simpa using hlisted
  have hclient : ((t.fetch Codec.client (Key.client ⟨1⟩).bytes).toOption.join.any
      fun c => (c.roots.erase "r").toList = ["rr"]) = true := by decide +kernel
  obtain ⟨c, hc, hleft⟩ := (Option.any_eq_true _ _).1 hclient
  have hmember := eq_ok_of_toOption (Option.join_eq_some_iff.1 hc)
  have hmembers : ∀ id ∈ x.members, ∃ c, t.fetch Codec.client (Key.client id).bytes = .ok c := by
    intro id hid
    obtain rfl : id = ⟨1⟩ := by simpa [← OrderedSet.mem_toList, hone] using hid
    exact ⟨_, hmember⟩
  obtain ⟨s, hs, hgone, hclients, -, hother, hagain⟩ :=
    removeRoot_exact hfetch hmembers Session.plain
  have hcounts : (t.under (Key.filesOf "r")).length = 2 ∧
      (t.under (Key.versionsOf "r")).length = 3 := by decide +kernel
  rw [hcounts.1, hcounts.2] at hs
  refine ⟨s, hs, hgone _ (Or.inr (Or.inl (List.prefix_append _ _))), by decide +kernel, ?_, ?_, ?_⟩
  · exact (hother (.file "rr" "a") ⟨by decide, by decide⟩ nofun).trans (if_neg (by decide))
  · have hlists : (⟨1⟩ : Uuid) ∈ x.members := by simp [← OrderedSet.mem_toList, hone]
    exact ⟨_, hclients ⟨1⟩ hlists c hmember, by simpa using hleft⟩
  · obtain ⟨u, hu, hbare⟩ := hagain "o" "s" [] ⟨0, 0⟩ "s" (by decide) rfl
      ⟨by decide, by decide, by decide, Nat.le_refl 0, by decide, by decide⟩
    exact ⟨_, u, hu, hbare⟩

end SyncLedger
